import RubbishStore.Lib.Halting
import RubbishStore.Util.FilterWordsNew

/- Whether `replace_new` comes to an end. Both of its loops are `while (true)`, so here
   they are steps of a machine, with the variables of the source (`step`). The inner loop
   runs off the content (`filling_reaches`); the outer one goes on by a character for
   every word it tries, so it hangs exactly where a class has no word in it
   (`terminates_iff`), and the constructor makes no such class. Where the machine ends it
   returns what `replaceNew` says (`returned_of_scan`). -/
namespace RubbishStore.Util.FilterWords
open RubbishStore.Lib RubbishStore.Lib.Halting StateTransition

/-- The loop that is at its top: the outer one, the `foreach` with the words to come, or
    the inner one; or the text that has been returned. -/
inductive Control where
  | scanning (result : Text) (i : Nat)
  | trying (word : Text) (vs : List Text) (result : Text) (i : Nat)
  | filling (word : Text) (vs : List Text) (v result : Text) (i n j : Nat) (str : Text)
  | returned (result : Text)
  deriving DecidableEq

section
variable (sameNumber : List Nat → List Nat → Bool)

/-- What is written for the characters collected. -/
def written (rep : Char) (str v : Text) : Text :=
  if eqText sameNumber str v then List.replicate str.length rep else str

def step (filter : Filter) (content : Text) (rep : Char) : Control → Option Control
  | .scanning result i =>
    if content.length ≤ i then some (.returned result)
    else
      let word := substr content i 1
      match filter.classArr.lookup word with
      | some vs => some (.trying word vs result i)
      | none => some (.scanning (result ++ word) (i + 1))
  | .trying _ [] result i => some (.scanning result i)
  | .trying word (v :: vs) result i => some (.filling word vs v result i i 1 word)
  | .filling word vs v result i n j str =>
    let next := substr content (n + 1) 1
    if v.length ≤ j ∨ next = [] then some (.trying word vs (result ++ written sameNumber rep str v) (i + 1))
    else if isChinese (next.flatMap utf8) then
      some (.filling word vs v result (i + 1) (n + 1) (j + 1) (str ++ next))
    else some (.filling word vs v result (i + 1) (n + 1) j str)
  | .returned _ => none

/-- The call of `replace_new` comes to an end. -/
def Terminates (filter : Filter) (content : Text) (rep : Char) : Prop :=
  Ends (step sameNumber filter content rep) (.scanning [] 0)

variable {sameNumber} {filter : Filter} {content : Text} {rep : Char}

theorem substr_one (content : Text) (i : Nat) : substr content i 1 = content[i]?.toList := by
  rw [substr, List.take_one, List.head?_drop]

/-- The inner loop: it collects what `gather` does, and ends. -/
theorem filling_reaches {rest : Text} (word v : Text) (vs : List Text) (result : Text) (i : Nat) {n : Nat} (j : Nat)
    (str : Text) (hrest : content.drop (n + 1) = rest) :
    Reaches (step sameNumber filter content rep) (.filling word vs v result i n j str)
      (.trying word vs (result ++ written sameNumber rep (str ++ (gather (v.length - j) rest).1) v)
        (i + (gather (v.length - j) rest).2 + 1)) := by
  induction rest generalizing i n j str with
  | nil =>
    have hnext : substr content (n + 1) 1 = [] := by rw [substr, hrest, List.take_nil]
    have hgather : gather (v.length - j) [] = ([], 0) := by rw [gather]
    rw [hgather, List.append_nil]
    apply reaches_one
    simp only [step, if_pos (Or.inr hnext)]
  | cons c rest ih =>
    have hnext : substr content (n + 1) 1 = [c] := by rw [substr, hrest]; rfl
    have htail : content.drop (n + 1 + 1) = rest := by rw [← List.drop_drop, hrest]; rfl
    by_cases hj : v.length ≤ j
    -- as many characters as the word has
    · have hgather : gather (v.length - j) (c :: rest) = ([], 0) := by rw [Nat.sub_eq_zero_of_le hj]; rfl
      rw [hgather, List.append_nil]
      apply reaches_one
      simp only [step, if_pos (Or.inl hj)]
    · obtain ⟨need, hneed⟩ : ∃ need, v.length - j = need + 1 := ⟨v.length - j - 1, by omega⟩
      have hgoes : ¬ (v.length ≤ j ∨ [c] = []) := not_or.mpr ⟨hj, List.cons_ne_nil c []⟩
      have hbytes : [c].flatMap utf8 = utf8 c := List.flatMap_singleton utf8 c
      rw [hneed, gather]
      -- `i` and `n` go on either way, `j` only by a character that counts
      by_cases hc : isChinese (utf8 c) = true
      · have hstep : step sameNumber filter content rep (.filling word vs v result i n j str) =
            some (.filling word vs v result (i + 1) (n + 1) (j + 1) (str ++ [c])) := by
          simp only [step, hnext, if_neg hgoes, hbytes, if_pos hc]
        have hrun := ih (i + 1) (j + 1) (str ++ [c]) htail
        rw [show v.length - (j + 1) = need by omega] at hrun
        rw [if_pos hc]
        refine reaches_head hstep ?_
        simpa [Nat.add_assoc, Nat.add_comm, Nat.add_left_comm] using hrun
      · have hstep : step sameNumber filter content rep (.filling word vs v result i n j str) =
            some (.filling word vs v result (i + 1) (n + 1) j str) := by
          simp only [step, hnext, if_neg hgoes, hbytes, if_neg hc]
        have hrun := ih (i + 1) j str htail
        rw [hneed] at hrun
        rw [if_neg hc]
        refine reaches_head hstep ?_
        simpa [Nat.add_assoc, Nat.add_comm, Nat.add_left_comm] using hrun

theorem attempt_eq (c : Char) (result v : Text) (i : Nat) :
    attempt sameNumber content rep c (result, i) v =
      (result ++ written sameNumber rep (c :: (gather (v.length - 1) (content.drop (i + 1))).1) v,
        i + (gather (v.length - 1) (content.drop (i + 1))).2 + 1) := by
  simp only [attempt, written]
  split <;> rfl

/-- The `foreach`: one attempt after the other. -/
theorem trying_reaches (c : Char) (vs : List Text) (state : Text × Nat) :
    Reaches (step sameNumber filter content rep) (.trying [c] vs state.1 state.2)
      (.scanning (vs.foldl (attempt sameNumber content rep c) state).1
        (vs.foldl (attempt sameNumber content rep c) state).2) := by
  induction vs generalizing state with
  | nil => exact reaches_one rfl
  | cons v vs ih =>
    have hrest := ih (attempt sameNumber content rep c state v)
    rw [attempt_eq] at hrest
    rw [List.foldl_cons]
    -- into the inner loop, and from its end on by the induction hypothesis
    refine reaches_head rfl ((filling_reaches [c] v vs state.1 state.2 1 [c] rfl).trans ?_)
    rw [attempt_eq]
    exact hrest

/-! A round of the outer loop. -/

theorem scanning_end (result : Text) {i : Nat} (hget : content[i]? = none) :
    step sameNumber filter content rep (.scanning result i) = some (.returned result) := by
  simp only [step, if_pos (List.getElem?_eq_none_iff.mp hget)]

theorem scanning_char (result : Text) {i : Nat} {c : Char} (hget : content[i]? = some c) :
    step sameNumber filter content rep (.scanning result i) =
      match filter.classArr.lookup [c] with
      | some vs => some (.trying [c] vs result i)
      | none => some (.scanning (result ++ [c]) (i + 1)) := by
  have hlt : ¬ content.length ≤ i := Nat.not_le_of_lt (List.getElem?_eq_some_iff.mp hget).1
  have hword : substr content i 1 = [c] := by rw [substr_one, hget]; rfl
  simp only [step, if_neg hlt, hword]

theorem scanning_plain (result : Text) {i : Nat} {c : Char} (hget : content[i]? = some c)
    (hclass : filter.classArr.lookup [c] = none) :
    Reaches (step sameNumber filter content rep) (.scanning result i) (.scanning (result ++ [c]) (i + 1)) := by
  apply reaches_one
  rw [scanning_char result hget, hclass]

theorem scanning_class (result : Text) {i : Nat} {c : Char} {vs : List Text} (hget : content[i]? = some c)
    (hclass : filter.classArr.lookup [c] = some vs) :
    Reaches (step sameNumber filter content rep) (.scanning result i)
      (.scanning (vs.foldl (attempt sameNumber content rep c) (result, i)).1
        (vs.foldl (attempt sameNumber content rep c) (result, i)).2) := by
  refine reaches_head ?_ (trying_reaches c vs (result, i))
  rw [scanning_char result hget, hclass]

/-- What the rounds of `scan` return, the machine returns. -/
theorem returned_of_scan {rounds : Nat} {result r : Text} {i : Nat}
    (h : scan sameNumber filter content rep rounds (result, i) = some r) :
    .returned r ∈ eval (step sameNumber filter content rep) (.scanning result i) := by
  induction rounds generalizing result i with
  | zero => cases h
  | succ rounds ih =>
    rw [scan] at h
    cases hget : content[i]? with
    | none =>
      simp only [hget] at h
      injection h with h
      rw [← h]
      exact mem_eval.mpr ⟨reaches_one (scanning_end result hget), rfl⟩
    | some c =>
      cases hclass : filter.classArr.lookup [c] with
      | none =>
        simp only [hget, hclass] at h
        exact mem_eval_of_reaches (scanning_plain result hget hclass) (ih h)
      | some vs =>
        simp only [hget, hclass] at h
        exact mem_eval_of_reaches (scanning_class result hget hclass) (ih h)

/-- No class of a character is empty. -/
def Filled (filter : Filter) : Prop := ∀ c, filter.classArr.lookup [c] ≠ some []

/-- Every round passes a character. -/
theorem scan_returns (hfilled : Filled filter) {rounds : Nat} (result : Text) (i : Nat)
    (hrounds : content.length - i < rounds) :
    ∃ r, scan sameNumber filter content rep rounds (result, i) = some r := by
  induction rounds generalizing result i with
  | zero => exact absurd hrounds (Nat.not_lt_zero _)
  | succ rounds ih =>
    rw [scan]
    cases hget : content[i]? with
    | none => exact ⟨result, rfl⟩
    | some c =>
      have hlt := (List.getElem?_eq_some_iff.mp hget).1
      cases hclass : filter.classArr.lookup [c] with
      | none =>
        simp only [hclass]
        exact ih (result ++ [c]) (i + 1) (by omega)
      | some vs =>
        have hpass := @foldl_attempt_position sameNumber content rep c vs (result, i)
        have hpos : 0 < vs.length := List.length_pos_iff.mpr fun hnil => hfilled c (hnil ▸ hclass)
        simp only [hclass]
        -- a class has a word, and each word is an attempt
        exact ih _ _ (by omega)

theorem returned_of_filled (sameNumber : List Nat → List Nat → Bool) (hfilled : Filled filter) (content : Text) (rep : Char) :
    ∃ result, .returned result ∈ eval (step sameNumber filter content rep) (.scanning [] 0) ∧
      replaceNew sameNumber filter content rep = some result := by
  obtain ⟨result, hscan⟩ : ∃ result, replaceNew sameNumber filter content rep = some result :=
    scan_returns hfilled [] 0 (Nat.lt_succ_self content.length)
  exact ⟨result, returned_of_scan hscan, hscan⟩

/-- At a class without words the `foreach` does nothing, and the outer loop is where it was. -/
theorem not_terminates_of_empty {c : Char} (hclass : filter.classArr.lookup [c] = some []) (rest : Text) :
    ¬ Terminates sameNumber filter (c :: rest) rep := by
  have hsteps : ∀ a, a = .scanning [] 0 ∨ a = .trying [c] [] [] 0 →
      ∃ b, step sameNumber filter (c :: rest) rep a = some b ∧ (b = .scanning [] 0 ∨ b = .trying [c] [] [] 0) := by
    intro a ha
    rcases ha with rfl | rfl
    · refine ⟨.trying [c] [] [] 0, ?_, .inr rfl⟩
      rw [scanning_char [] List.getElem?_cons_zero, hclass]
    · exact ⟨.scanning [] 0, rfl, .inl rfl⟩
  exact not_ends_of_steps hsteps (.inl rfl)

/-- With an index, whatever it holds, every content comes to an end exactly when no class
    of a character is empty. -/
theorem terminates_iff (filter : Filter) (rep : Char) :
    (∀ content, Terminates sameNumber filter content rep) ↔ Filled filter := by
  refine ⟨fun hall c hclass => ?_, fun hfilled content => ?_⟩
  · exact not_terminates_of_empty hclass [] (hall [c])
  · obtain ⟨result, hreturned, -⟩ := returned_of_filled sameNumber hfilled content rep
    exact ⟨.returned result, hreturned⟩

/-- The constructor makes a class only to put a word in it. -/
theorem filled_of_indexed {words : List Text} (h : Indexed sameNumber words filter.classArr) : Filled filter := by
  intro c hclass
  exact (h.sound [c] [] hclass).1 rfl

/-- For every list of words, and whether the index comes from memcache or not, `replace_new`
    comes to an end on every content, with the text that `replaceNew` gives. -/
theorem replaceNew_terminates (sameNumber : List Nat → List Nat → Bool) (cached : Option (List Text))
    (rows : List Text) (content : Text) (rep : Char) :
    let filter := (construct sameNumber (cached.map (build sameNumber)) rows).1
    ∃ result, .returned result ∈ eval (step sameNumber filter content rep) (.scanning [] 0) ∧
      replaceNew sameNumber filter content rep = some result :=
  returned_of_filled sameNumber (filled_of_indexed (indexed_construct cached rows)) content rep

end

end RubbishStore.Util.FilterWords
