import RubbishStore.Lib.Assoc
import RubbishStore.Lib.Mask
import RubbishStore.Lib.PhpText

/- `Util_FilterWords`: the banned words, kept by their first characters, and `replace`,
   which goes over the characters of a text and blots out every banned word that
   starts at one. The index holds each word of the list behind its first character
   (`indexed_build`), the comparisons read the text as it came in, and a character is
   blotted out exactly when an occurrence covers it (`replace_masks`). -/
namespace RubbishStore.Util.FilterWords
open RubbishStore.Lib RubbishStore.Lib.Mask

/-- `$classArr`: the words by their first character, as a text, which is empty for the
    empty word. -/
abbrev ClassArr : Type := List (Text × List Text)

structure Filter where
  classArr : ClassArr
  deriving DecidableEq, Repr

section
variable (sameNumber : List Nat → List Nat → Bool)

/-- `==` -/
def eqText (s t : Text) : Bool := PhpText.looseEq sameNumber (s.map Char.toNat) (t.map Char.toNat)

/-- The constructor's loop body, on the `WORD` of a row. -/
def addWord (classArr : ClassArr) (word : Text) : ClassArr :=
  let v := PhpText.trim Char.toNat word
  let oneStr := v.take 1
  let classArr := if (classArr.lookup oneStr).isNone then assocSet classArr oneStr [] else classArr
  let words := (classArr.lookup oneStr).getD []
  if words.any (eqText sameNumber v) then classArr else assocSet classArr oneStr (words ++ [v])

def build (rows : List Text) : ClassArr := rows.foldl (addWord sameNumber) []

/-- From what memcache holds, and the rows of the table; with what memcache holds then. -/
def construct (cached : Option ClassArr) (rows : List Text) : Filter × Option ClassArr :=
  match cached with
  | some (c :: classArr) => (⟨c :: classArr⟩, cached)
  | _ =>
    let classArr := build sameNumber rows
    (⟨classArr⟩, some classArr)

/-- `mb_substr` -/
def substr (content : Text) (i count : Nat) : Text := (content.drop i).take count

/-- The loop goes over the characters that came in, not over those already replaced. -/
def replace (filter : Filter) (content : Text) (rep : Char := '*') : Text :=
  content.zipIdx.foldl (fun words p =>
    let (word, i) := p
    match filter.classArr.lookup [word] with
    | some vs => vs.foldl (fun words v =>
        let filterWordLength := v.length
        let contentEqPostionWord := substr content i filterWordLength
        if eqText sameNumber contentEqPostionWord v then
          splice words i filterWordLength (List.replicate filterWordLength rep)
        else words) words
    | none => words) content

/-- The banned words: the rows without the blanks around them. -/
def bannedWords (rows : List Text) : List Text := rows.map (PhpText.trim Char.toNat)

/-- The index belongs to a list of words. -/
structure Indexed (words : List Text) (classArr : ClassArr) : Prop where
  sound : ∀ k vs, classArr.lookup k = some vs → vs ≠ [] ∧ vs.Nodup ∧ ∀ v ∈ vs, v ∈ words ∧ v.take 1 = k
  complete : ∀ w ∈ words, ∃ vs, classArr.lookup (w.take 1) = some vs ∧
    ∃ v ∈ vs, eqText sameNumber w v = true

variable {sameNumber}

theorem eqText_self (s : Text) : eqText sameNumber s s = true := PhpText.looseEq_self _ _

theorem eqText_iff {t : Text} (ht : PhpText.isNumeric (t.map Char.toNat) = false) (s : Text) :
    eqText sameNumber s t = true ↔ s = t := by
  rw [eqText, PhpText.looseEq_iff ht]
  exact List.map_inj_right fun a b h => Char.toNat_inj.mp h

/-- A class after a word has been added. -/
theorem lookup_addWord (classArr : ClassArr) (word k : Text) :
    let v := PhpText.trim Char.toNat word
    let words := (classArr.lookup (v.take 1)).getD []
    (addWord sameNumber classArr word).lookup k =
      if v.take 1 = k then some (if words.any (eqText sameNumber v) then words else words ++ [v])
      else classArr.lookup k := by
  intro v words
  have hadd : addWord sameNumber classArr word =
      let classArr := if (classArr.lookup (v.take 1)).isNone then assocSet classArr (v.take 1) [] else classArr
      let words := (classArr.lookup (v.take 1)).getD []
      if words.any (eqText sameNumber v) then classArr else assocSet classArr (v.take 1) (words ++ [v]) := rfl
  rw [hadd]
  cases hold : classArr.lookup (v.take 1) with
  | none =>
    have hwords : words = [] := by
      show (classArr.lookup (v.take 1)).getD [] = []
      rw [hold]
      rfl
    simp only [Option.isNone_none, if_true, lookup_set, hwords, Option.getD_some, List.any_nil,
      Bool.false_eq_true, if_false]
    split <;> rfl
  | some vs =>
    have hwords : words = vs := by
      show (classArr.lookup (v.take 1)).getD [] = vs
      rw [hold]
      rfl
    simp only [Option.isNone_some, Bool.false_eq_true, if_false, hold, Option.getD_some, hwords]
    by_cases hany : vs.any (eqText sameNumber v) = true
    · rw [if_pos hany, if_pos hany]
      split
      · next hk => rw [← hk, hold]
      · rfl
    · rw [if_neg hany, if_neg hany, lookup_set]

/-- The words of a class after one has been added: no more than that one, none twice,
    and one that is equal to it by `==`. -/
theorem class_with {old : List Text} (hnodup : old.Nodup) (v : Text) :
    let words := if old.any (eqText sameNumber v) then old else old ++ [v]
    words.Nodup ∧ (∀ u ∈ words, u ∈ old ∨ u = v) ∧ (∀ u ∈ old, u ∈ words) ∧
      ∃ u ∈ words, eqText sameNumber v u = true := by
  intro words
  by_cases hany : old.any (eqText sameNumber v) = true
  · have hwords : words = old := if_pos hany
    rw [hwords]
    exact ⟨hnodup, fun u hu => .inl hu, fun u hu => hu, List.any_eq_true.mp hany⟩
  · have hwords : words = old ++ [v] := if_neg hany
    have hnew : v ∉ old := fun hv => hany (List.any_eq_true.mpr ⟨v, hv, eqText_self v⟩)
    rw [hwords]
    refine ⟨?_, fun u hu => ?_, fun u hu => List.mem_append_left _ hu, v, ?_, eqText_self v⟩
    · rw [← List.concat_eq_append]
      exact hnodup.concat hnew
    · exact (List.mem_append.mp hu).imp_right List.mem_singleton.mp
    · exact List.mem_append_right _ (List.mem_singleton_self v)

theorem Indexed.addWord {words : List Text} {classArr : ClassArr} (h : Indexed sameNumber words classArr)
    (word : Text) :
    Indexed sameNumber (words ++ [PhpText.trim Char.toNat word]) (addWord sameNumber classArr word) := by
  have hlookup := @lookup_addWord sameNumber classArr word
  simp only at hlookup
  generalize PhpText.trim Char.toNat word = v at hlookup ⊢
  have hold : ((classArr.lookup (v.take 1)).getD []).Nodup ∧
      ∀ u ∈ (classArr.lookup (v.take 1)).getD [], u ∈ words ∧ u.take 1 = v.take 1 := by
    cases hclass : classArr.lookup (v.take 1) with
    | none => exact ⟨List.nodup_nil, List.forall_mem_nil _⟩
    | some vs => exact (h.sound _ vs hclass).2
  generalize hclass : (classArr.lookup (v.take 1)).getD [] = old at hlookup hold
  obtain ⟨hnodup, hmem, hkeep, u, hu, heq⟩ := @class_with sameNumber old hold.1 v
  refine ⟨fun k vs hvs => ?_, fun w hw => ?_⟩
  · -- a class is as it was, or has the word behind those that were there
    rw [hlookup] at hvs
    split at hvs
    · next hk =>
      subst hk
      injection hvs with hvs
      subst hvs
      refine ⟨List.ne_nil_of_mem hu, hnodup, fun w hw => ?_⟩
      rcases hmem w hw with hw | rfl
      · exact ⟨List.mem_append_left _ (hold.2 w hw).1, (hold.2 w hw).2⟩
      · exact ⟨List.mem_append_right _ (List.mem_singleton_self w), rfl⟩
    · obtain ⟨hne, hnodup, hmem⟩ := h.sound k vs hvs
      exact ⟨hne, hnodup, fun u hu => ⟨List.mem_append_left _ (hmem u hu).1, (hmem u hu).2⟩⟩
  · rcases List.mem_append.mp hw with hw | hw
    · obtain ⟨vs, hvs, u, hu, heq⟩ := h.complete w hw
      by_cases hk : v.take 1 = w.take 1
      · have hold_eq : vs = old := by
          rw [← hclass, hk, hvs]
          rfl
        exact ⟨_, by rw [hlookup, if_pos hk], u, hkeep u (hold_eq ▸ hu), heq⟩
      · exact ⟨vs, by rw [hlookup, if_neg hk, hvs], u, hu, heq⟩
    · rw [List.mem_singleton] at hw
      subst hw
      exact ⟨_, by rw [hlookup, if_pos rfl], u, hu, heq⟩

theorem indexed_build (rows : List Text) :
    Indexed sameNumber (bannedWords rows) (build sameNumber rows) := by
  suffices hfold : ∀ (words : List Text) (classArr : ClassArr), Indexed sameNumber words classArr →
      Indexed sameNumber (words ++ bannedWords rows) (rows.foldl (FilterWords.addWord sameNumber) classArr) by
    exact hfold [] [] ⟨fun k vs hvs => absurd hvs (by simp), List.forall_mem_nil _⟩
  induction rows with
  | nil => intro words classArr h; simpa [bannedWords] using h
  | cons word rows ih =>
    intro words classArr h
    simpa [bannedWords] using ih _ _ (h.addWord word)

/-! What `replace` does. -/

/-- The spans that the loop replaces, in its order. -/
def spans (sameNumber : List Nat → List Nat → Bool) (filter : Filter) (content : Text) : List (Nat × Nat) :=
  content.zipIdx.flatMap fun p =>
    ((filter.classArr.lookup [p.1]).getD []).filterMap fun v =>
      if eqText sameNumber (substr content p.2 v.length) v then some (p.2, v.length) else none

/-- The word stands in the content from a position on. -/
def Occurs (w content : Text) (i : Nat) : Prop := w <+: content.drop i

instance (w content : Text) (i : Nat) : Decidable (Occurs w content i) :=
  inferInstanceAs (Decidable (_ <+: _))

theorem replace_eq_blot (filter : Filter) (content : Text) (rep : Char) :
    replace sameNumber filter content rep = blot rep content (spans sameNumber filter content) := by
  rw [blot, spans, List.foldl_flatMap, replace]
  congr 1
  funext words p
  obtain ⟨word, i⟩ := p
  rw [List.foldl_filterMap]
  cases hclass : filter.classArr.lookup [word] with
  | none => simp only [hclass, Option.getD_none, List.foldl_nil]
  | some vs =>
    simp only [hclass, Option.getD_some]
    congr 1
    funext words v
    by_cases heq : eqText sameNumber (substr content i v.length) v = true
    · rw [if_pos heq, if_pos heq]
      rfl
    · rw [if_neg heq, if_neg heq]

theorem occurs_iff_substr {w content : Text} {i : Nat} :
    Occurs w content i ↔ substr content i w.length = w := by
  rw [Occurs, List.prefix_iff_eq_take, substr, eq_comm]

theorem Occurs.le_length {w content : Text} {i : Nat} (h : Occurs w content i) (hw : w ≠ []) :
    i + w.length ≤ content.length := by
  have hle := h.length_le
  have hpos := List.length_pos_iff.mpr hw
  rw [List.length_drop] at hle
  omega

/-- With words that are no numbers the spans are the occurrences of the words. -/
theorem mem_spans_iff {words : List Text} {filter : Filter} (h : Indexed sameNumber words filter.classArr)
    (hnum : ∀ w ∈ words, PhpText.isNumeric (w.map Char.toNat) = false) (content : Text) (i n : Nat) :
    (i, n) ∈ spans sameNumber filter content ↔
      ∃ w ∈ words, w ≠ [] ∧ w.length = n ∧ Occurs w content i := by
  refine ⟨fun hmem => ?_, fun hx => ?_⟩
  · obtain ⟨⟨c, j⟩, -, hmem⟩ := List.mem_flatMap.mp hmem
    obtain ⟨v, hv, hspan⟩ := List.mem_filterMap.mp hmem
    split at hspan
    · next heq =>
      injection hspan with hspan
      injection hspan with hj hn
      subst hj hn
      cases hclass : filter.classArr.lookup [c] with
      | none =>
        rw [hclass] at hv
        cases hv
      | some vs =>
        rw [hclass] at hv
        obtain ⟨hword, hfirst⟩ := (h.sound _ _ hclass).2.2 v hv
        refine ⟨v, hword, ?_, rfl, occurs_iff_substr.mpr ((eqText_iff (hnum v hword) _).mp heq)⟩
        rintro rfl
        cases hfirst
    · cases hspan
  · obtain ⟨w, hw, hne, rfl, hoccurs⟩ := hx
    obtain ⟨c, tail, rfl⟩ := List.exists_cons_of_ne_nil hne
    obtain ⟨vs, hclass, v, hv, heq⟩ := h.complete _ hw
    have hword := ((h.sound _ _ hclass).2.2 v hv).1
    obtain rfl := (eqText_iff (hnum v hword) _).mp heq
    have hhead : content[i]? = some c := by
      obtain ⟨t, ht⟩ := hoccurs
      have hget : (content.drop i)[0]? = some c := by rw [← ht]; rfl
      rwa [List.getElem?_drop, Nat.add_zero] at hget
    refine List.mem_flatMap.mpr ⟨(c, i), List.mk_mem_zipIdx_iff_getElem?.mpr hhead, ?_⟩
    rw [List.mem_filterMap]
    refine ⟨c :: tail, ?_, by rw [occurs_iff_substr.mp hoccurs, if_pos (eqText_self _)]⟩
    have hkey : (c :: tail).take 1 = [c] := rfl
    rw [← hkey, hclass]
    exact hv

theorem replace_getElem? {words : List Text} {filter : Filter} (h : Indexed sameNumber words filter.classArr)
    (hnum : ∀ w ∈ words, PhpText.isNumeric (w.map Char.toNat) = false) (content : Text) (rep : Char) :
    (replace sameNumber filter content rep).length = content.length ∧
    ∀ k, (replace sameNumber filter content rep)[k]? =
      if ∃ w ∈ words, ∃ i, i ≤ k ∧ k < i + w.length ∧ Occurs w content i then some rep
      else content[k]? := by
  have hinside : ∀ span ∈ spans sameNumber filter content, span.1 + span.2 ≤ content.length := by
    rintro ⟨i, n⟩ hspan
    obtain ⟨w, -, hne, rfl, hoccurs⟩ := (mem_spans_iff h hnum content i n).mp hspan
    exact hoccurs.le_length hne
  rw [replace_eq_blot]
  refine ⟨length_blot hinside, fun k => ?_⟩
  rw [getElem?_blot hinside]
  have hiff : (∃ span ∈ spans sameNumber filter content, Covers span k) ↔
      ∃ w ∈ words, ∃ i, i ≤ k ∧ k < i + w.length ∧ Occurs w content i := by
    refine ⟨fun hx => ?_, fun hx => ?_⟩
    · obtain ⟨⟨i, n⟩, hspan, hcovers⟩ := hx
      obtain ⟨w, hw, -, rfl, hoccurs⟩ := (mem_spans_iff h hnum content i n).mp hspan
      exact ⟨w, hw, i, hcovers.1, hcovers.2, hoccurs⟩
    · obtain ⟨w, hw, i, hle, hlt, hoccurs⟩ := hx
      have hne : w ≠ [] := by
        rintro rfl
        simp only [List.length_nil] at hlt
        omega
      exact ⟨(i, w.length), (mem_spans_iff h hnum content i _).mpr ⟨w, hw, hne, rfl, hoccurs⟩, hle, hlt⟩
  simp only [hiff]

/-- The rows that the index comes from: those of the table, or the ones that memcache's
    index was made of, when it holds one that is not empty. -/
def indexedRows (cached : Option (List Text)) (rows : List Text) : List Text :=
  match cached with
  | some (row :: cachedRows) => row :: cachedRows
  | _ => rows

theorem indexed_construct (cached : Option (List Text)) (rows : List Text) :
    Indexed sameNumber (bannedWords (indexedRows cached rows))
      (construct sameNumber (cached.map (build sameNumber)) rows).1.classArr := by
  match cached with
  | none => exact indexed_build rows
  | some [] => exact indexed_build rows
  | some (row :: cachedRows) =>
    have hindexed := @indexed_build sameNumber (row :: cachedRows)
    cases hbuild : build sameNumber (row :: cachedRows) with
    | nil =>
      obtain ⟨vs, hvs, -⟩ := hindexed.complete _ List.mem_cons_self
      rw [hbuild] at hvs
      cases hvs
    | cons c classArr =>
      rw [hbuild] at hindexed
      rw [Option.map_some, hbuild]
      exact hindexed

/-- A character of the result is the replacement exactly when an occurrence of a banned
    word covers it, and the character that was there otherwise. -/
theorem replace_masks (sameNumber : List Nat → List Nat → Bool) (cached : Option (List Text))
    (rows : List Text) (content : Text) (rep : Char)
    (hnum : ∀ w ∈ bannedWords (indexedRows cached rows), PhpText.isNumeric (w.map Char.toNat) = false) :
    let filter := (construct sameNumber (cached.map (build sameNumber)) rows).1
    (replace sameNumber filter content rep).length = content.length ∧
    ∀ k, (replace sameNumber filter content rep)[k]? =
      if ∃ w ∈ bannedWords (indexedRows cached rows), ∃ i,
        i ≤ k ∧ k < i + w.length ∧ Occurs w content i then some rep
      else content[k]? :=
  replace_getElem? (indexed_construct cached rows) hnum content rep

theorem replace_masks_overlap :
    let filter := (construct (fun _ _ => false) none [chars " 中国\n", chars "国人民"]).1
    (replace (fun _ _ => false) filter (chars "在中国人民"))[2]? = some '*' := by
  have hnum : ∀ w ∈ bannedWords (indexedRows none [chars " 中国\n", chars "国人民"]),
      PhpText.isNumeric (w.map Char.toNat) = false := by
    decide +kernel
  have hoccurs : chars "中国" ∈ bannedWords (indexedRows none [chars " 中国\n", chars "国人民"]) ∧
      1 ≤ 2 ∧ 2 < 1 + (chars "中国").length ∧ Occurs (chars "中国") (chars "在中国人民") 1 := by
    decide +kernel
  have hmask := (replace_masks (fun _ _ => false) none _ (chars "在中国人民") '*' hnum).2 2
  rwa [if_pos ⟨chars "中国", hoccurs.1, 1, hoccurs.2⟩] at hmask

end

end RubbishStore.Util.FilterWords
