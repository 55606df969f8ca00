import RubbishStore.Lib.Replace

/- `Util_PublicMethods::escapeLuceneChars`, which takes the operators of a query out of it,
   one after the other. When `&&` and `||` are looked for, twelve characters are gone
   already; what is left of a run of `&` or `|` is decided by its parity then (`reduced`).
   The characters that go afterwards, and the pairs of `|` before them, may have kept two
   `&` or two `|` apart. All that is looked for is ASCII, so it does not matter whether the
   other elements of a text are characters or bytes. -/
namespace RubbishStore.Util.LuceneChars
open RubbishStore.Lib RubbishStore.Lib.Replace

/-- `$rep_src` -/
def repSrc : List Text :=
  [['('], [')'], [':'], ['^'], ['{'], ['}'], ['['], [']'], ['?'], ['*'], ['~'], ['!'], ['&', '&'],
    ['|', '|'], ['+'], ['-'], ['"']]

/-- `str_replace($search, '', $subject)` for an array of words. -/
def strReplace (search : List Text) (subject : Text) : Text :=
  search.foldl (fun s word => delete (ofWord id word) s) subject

/-- The strings that `empty` takes for nothing. -/
def empty (s : Text) : Bool := s = [] || s = ['0']

def escapeLuceneChars (origstr : Text) : Text :=
  if empty origstr then origstr else strReplace repSrc origstr

/-- No operator is left, so that a second call finds nothing to do. -/
def Clean (origstr : Text) : Prop :=
  (∀ word ∈ repSrc, ¬ word <:+: escapeLuceneChars origstr) ∧
    escapeLuceneChars (escapeLuceneChars origstr) = escapeLuceneChars origstr

/-- The characters that go before the pairs. -/
def early : Text := ['(', ')', ':', '^', '{', '}', '[', ']', '?', '*', '~', '!']

/-- And those that go after them. -/
def late : Text := ['+', '-', '"']

/-- Without the early characters, every run of `&` cut by its parity, then every run of `|`. -/
def reduced (s : Text) : Text := oddRuns '|' (oddRuns '&' (s.filter fun c => c ∉ early))

/-- No two `&` and no two `|` have nothing between them but characters that go last. -/
def Apart (s : Text) : Prop :=
  ∀ c, c = '&' ∨ c = '|' → ∀ w, (∀ a ∈ w, a ∈ late) → ¬ c :: w ++ [c] <:+: s

theorem repSrc_eq : repSrc =
    early.map (fun c => [c]) ++ ([['&', '&'], ['|', '|']] ++ late.map fun c => [c]) := rfl

theorem strReplace_repSrc (s : Text) : strReplace repSrc s = (reduced s).filter fun c => c ∉ late := by
  have hpairs : ∀ t : Text, ([['&', '&'], ['|', '|']] : List Text).foldl
      (fun s word => delete (ofWord id word) s) t = oddRuns '|' (oddRuns '&' t) := by
    intro t
    rw [List.foldl_cons, List.foldl_cons, List.foldl_nil, delete_pair, delete_pair]
  rw [strReplace, repSrc_eq, List.foldl_append, List.foldl_append, foldl_delete_singletons, hpairs,
    foldl_delete_singletons, reduced]

/-- The strings that are left as they are have no operator either. -/
theorem escapeLuceneChars_eq (s : Text) :
    escapeLuceneChars s = (reduced s).filter fun c => c ∉ late := by
  rw [escapeLuceneChars]
  split
  · next hempty =>
    rw [empty, Bool.or_eq_true, decide_eq_true_eq, decide_eq_true_eq] at hempty
    obtain rfl | rfl := hempty
    · decide
    · decide
  · exact strReplace_repSrc s

theorem oddRuns_subset (c : Char) (s : Text) : oddRuns c s ⊆ s := by
  rw [← delete_pair]
  exact (delete_sublist s).subset

theorem not_mem_escapeLuceneChars {c : Char} (hc : c ∈ early ∨ c ∈ late) (s : Text) :
    c ∉ escapeLuceneChars s := by
  rw [escapeLuceneChars_eq]
  intro hmem
  obtain ⟨hmem, hlate⟩ := List.mem_filter.mp hmem
  obtain hc | hc := hc
  · have hsource := oddRuns_subset '&' _ (oddRuns_subset '|' _ hmem)
    exact of_decide_eq_true (List.mem_filter.mp hsource).2 hc
  · exact of_decide_eq_true hlate hc

theorem pair_infix_escapeLuceneChars_iff {c : Char} (hc : c = '&' ∨ c = '|') (s : Text) :
    [c, c] <:+: escapeLuceneChars s ↔ ∃ w, (∀ a ∈ w, a ∈ late) ∧ c :: w ++ [c] <:+: reduced s := by
  have hkept : decide (c ∉ late) = true := by
    obtain rfl | rfl := hc
    · decide
    · decide
  rw [escapeLuceneChars_eq, pair_infix_filter_iff (fun a => decide (a ∉ late)) hkept hkept]
  simp

/-- The operators of one character are gone in any case. -/
theorem no_word_iff_apart (s : Text) :
    (∀ word ∈ repSrc, ¬ word <:+: escapeLuceneChars s) ↔ Apart (reduced s) := by
  have hsingle : ∀ c, c ∈ early ∨ c ∈ late → ¬ [c] <:+: escapeLuceneChars s := by
    intro c hc hpair
    exact not_mem_escapeLuceneChars hc s (hpair.subset List.mem_cons_self)
  constructor
  · intro hnone c hc w hw hpair
    have hword : [c, c] ∈ repSrc := by
      obtain rfl | rfl := hc
      · decide
      · decide
    exact hnone _ hword ((pair_infix_escapeLuceneChars_iff hc s).mpr ⟨w, hw, hpair⟩)
  · intro hapart word hword
    have hpair : ∀ c, c = '&' ∨ c = '|' → ¬ [c, c] <:+: escapeLuceneChars s := by
      intro c hc hpair
      obtain ⟨w, hw, hwindow⟩ := (pair_infix_escapeLuceneChars_iff hc s).mp hpair
      exact hapart c hc w hw hwindow
    rw [repSrc_eq, List.mem_append, List.mem_append] at hword
    obtain hword | hword | hword := hword
    · obtain ⟨c, hc, rfl⟩ := List.mem_map.mp hword
      exact hsingle c (.inl hc)
    · obtain rfl | rfl := List.mem_pair.mp hword
      · exact hpair '&' (.inl rfl)
      · exact hpair '|' (.inr rfl)
    · obtain ⟨c, hc, rfl⟩ := List.mem_map.mp hword
      exact hsingle c (.inr hc)

theorem delete_ofWord_eq_self {word s : Text} (h : ¬ word <:+: s) : delete (ofWord id word) s = s := by
  rw [delete_eq_self_iff]
  intro t ht _ hhit
  obtain ⟨length, hlength⟩ := hhit
  rw [ofWord] at hlength
  split at hlength
  · next hstart =>
    obtain ⟨p, hp, hfront⟩ := startsWith_iff.mp hstart
    rw [List.map_id, List.map_id] at hp
    rw [hp] at hfront
    exact h (hfront.isInfix.trans ht.isInfix)
  · cases hlength

theorem strReplace_eq_self {words : List Text} {s : Text} (h : ∀ word ∈ words, ¬ word <:+: s) :
    strReplace words s = s := by
  induction words with
  | nil => rfl
  | cons word words ih =>
    obtain ⟨hword, hwords⟩ := List.forall_mem_cons.mp h
    rw [strReplace, List.foldl_cons, delete_ofWord_eq_self hword]
    exact ih hwords

/-- **A query comes out clean just when nothing brings two `&` or two `|` together** once
    these are looked for no more. -/
theorem escapeLuceneChars_clean_iff (origstr : Text) : Clean origstr ↔ Apart (reduced origstr) := by
  rw [Clean, no_word_iff_apart]
  refine and_iff_left_of_imp fun hapart => ?_
  have hnone := (no_word_iff_apart origstr).mpr hapart
  have hagain := strReplace_eq_self hnone
  generalize escapeLuceneChars origstr = out at hagain ⊢
  rw [escapeLuceneChars, hagain, ite_self]

theorem escapeLuceneChars_joins :
    escapeLuceneChars ['&', '+', '&'] = ['&', '&'] ∧ escapeLuceneChars ['&', '|', '|', '&'] = ['&', '&'] ∧
      ¬ ∀ origstr : Text, Clean origstr := by
  refine ⟨by decide, by decide, fun h => ?_⟩
  have hout : escapeLuceneChars ['&', '+', '&'] = ['&', '&'] := by decide
  have hnone := (h ['&', '+', '&']).1 ['&', '&'] (by decide)
  rw [hout] at hnone
  exact hnone (List.infix_refl _)

end RubbishStore.Util.LuceneChars
