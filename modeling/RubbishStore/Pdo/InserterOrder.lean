import RubbishStore.Pdo.MultiLineInserter

/- The order in which `PDOMultiLineInserter` sends its rows, when every execute
   succeeds. PDO refuses an execute with more or fewer values than its statement has
   placeholders, so this is part of what success means; nothing else is asked of the
   rows. Full batches leave in the order of submission, and the rows behind the last
   of them leave from the end of the buffer. -/
namespace RubbishStore.Pdo
open RubbishStore.Lib

section
variable {V : Type}

namespace PDOMultiLineInserter

/-- No call changes the number of fields or the size of a batch. -/
def Shaped (n k : Nat) (s : PDOMultiLineInserter V) : Prop :=
  s.numberOfFields = n ∧ s.purgeAtCount = k

section
variable {answers : Answers} {n k : Nat} {s : PDOMultiLineInserter V}

theorem Shaped.insertRow (h : Shaped n k s) (row : List (Val V)) :
    Shaped n k (s.insertRow answers row).2 := by
  cases hanswer : answers s.executions.length <;>
  · simp only [PDOMultiLineInserter.insertRow, execute, hanswer]
    split <;> exact h

theorem Shaped.inserted (h : Shaped n k s) (rows : List (List (Val V))) :
    Shaped n k (inserted answers s rows) :=
  run_inv h atEach_true fun _ row hs _ => hs.insertRow row

theorem Shaped.purgeLoop (h : Shaped n k s) (fuel : Nat) :
    Shaped n k (purgeLoop answers fuel s).2 := by
  induction fuel generalizing s with
  | zero => exact h
  | succ fuel ih =>
    cases hanswer : answers s.executions.length with
    | error info =>
      simp only [PDOMultiLineInserter.purgeLoop, execute, hanswer]
      split <;> exact h
    | ok u =>
      simp only [PDOMultiLineInserter.purgeLoop, execute, hanswer]
      split
      · exact ih h
      · exact h

end

theorem length_of_mem_groups {α : Type} {n k : Nat} {values : List α}
    (hlength : values.length = k * n) : ∀ r ∈ groups n k values, r.length = n := by
  induction k generalizing values with
  | zero => simp [groups]
  | succ k ih =>
    rw [Nat.succ_mul] at hlength
    intro r hr
    rw [groups, List.mem_cons] at hr
    obtain rfl | hr := hr
    · rw [List.length_take]
      omega
    · exact ih (by rw [List.length_drop]; omega) r hr

/-- Executions with the right number of values send rows of the right width only. -/
theorem Shaped.length_of_mem_rowsOf {n k : Nat} {s : PDOMultiLineInserter V} (h : Shaped n k s)
    {e : Execution V} (he : e.values.length = if e.big then k * n else n) :
    ∀ r ∈ s.rowsOf e, r.length = n := by
  rw [rowsOf, h.1, h.2]
  split
  · next hbig =>
    rw [if_pos hbig] at he
    exact length_of_mem_groups he
  · next hsmall =>
    rw [if_neg hsmall] at he
    intro r hr
    rw [List.mem_singleton.mp hr, he]

/-- The rows behind the last full batch. -/
def remaining (k : Nat) (rows : List (List (Val V))) : List (List (Val V)) :=
  rows.drop (rows.length / k * k)

/-- The rows that wait are those behind the last full batch. -/
theorem holds_inserted_remaining {answers : Answers} (hok : ∀ i, answers i = .ok ())
    (tableName : String) (fieldsAsArray : List String) (bigInsertCount : Nat)
    {rows : List (List (Val V))} (hrows : ∀ r ∈ rows, r.length = fieldsAsArray.length) :
    ∃ sent,
      Holds fieldsAsArray.length bigInsertCount
        (inserted answers (construct tableName fieldsAsArray bigInsertCount) rows) sent
        (remaining bigInsertCount rows) ∧
      sent ++ remaining bigInsertCount rows = rows := by
  obtain ⟨sent, buffered, h, happ, hlength⟩ :=
    holds_inserted_mod hok tableName fieldsAsArray bigInsertCount hrows
  have hremaining : remaining bigInsertCount rows = buffered := by
    have hsent : rows.length / bigInsertCount * bigInsertCount = sent.length := by
      have htotal := congrArg List.length happ
      rw [List.length_append, hlength] at htotal
      have hdiv := Nat.div_add_mod' rows.length bigInsertCount
      omega
    rw [remaining, hsent, ← happ, List.drop_left]
  exact ⟨sent, hremaining ▸ h, hremaining ▸ happ⟩

/-- The rows reach the database in the order in which they were inserted, if and only
    if each has a value for every field and those behind the last full batch read the
    same from the end. -/
theorem rows_in_order_iff (answers : Answers) (hok : ∀ i, answers i = .ok ()) (tableName : String)
    (fieldsAsArray : List String) (bigInsertCount : Nat) (rows : List (List (Val V))) :
    let s₀ : PDOMultiLineInserter V := construct tableName fieldsAsArray bigInsertCount
    let t := ((inserted answers s₀ rows).purgeRemainingInserts answers).2
    (∀ e ∈ t.executions, e.values.length =
      if e.big then bigInsertCount * fieldsAsArray.length else fieldsAsArray.length) →
    (t.executions.flatMap t.rowsOf = rows ↔
      (∀ r ∈ rows, r.length = fieldsAsArray.length) ∧
        (remaining bigInsertCount rows).reverse = remaining bigInsertCount rows) := by
  intro s₀ t hvalues
  have hshaped : Shaped fieldsAsArray.length bigInsertCount t :=
    Shaped.purgeLoop (Shaped.inserted ⟨rfl, rfl⟩ rows) _
  have hpurged : ∀ hrows : ∀ r ∈ rows, r.length = fieldsAsArray.length,
      (t.executions.flatMap t.rowsOf = rows ↔
        (remaining bigInsertCount rows).reverse = remaining bigInsertCount rows) := by
    intro hrows
    obtain ⟨sent, h, happ⟩ := holds_inserted_remaining hok tableName fieldsAsArray bigInsertCount hrows
    have hloop := (h.purgeLoop hok).1.sent_eq
    rw [← h.count] at hloop
    calc t.executions.flatMap t.rowsOf = rows
        ↔ sent ++ (remaining bigInsertCount rows).reverse = rows := by rw [← hloop]; rfl
      _ ↔ sent ++ (remaining bigInsertCount rows).reverse =
            sent ++ remaining bigInsertCount rows := by rw [happ]
      _ ↔ (remaining bigInsertCount rows).reverse = remaining bigInsertCount rows := by
          rw [List.append_cancel_left_eq]
  refine ⟨fun horder => ?_, fun ⟨hrows, hreverse⟩ => (hpurged hrows).mpr hreverse⟩
  have hrows : ∀ r ∈ rows, r.length = fieldsAsArray.length := by
    rw [← horder]
    intro r hr
    obtain ⟨e, he, hr⟩ := List.mem_flatMap.mp hr
    exact hshaped.length_of_mem_rowsOf (hvalues e he) r hr
  exact ⟨hrows, (hpurged hrows).mp horder⟩

theorem rows_in_order_iff_three :
    let rows : List (List (Val String)) :=
      [[some "1", none], [some "2", some "b"], [some "3", some "c"]]
    let t := ((inserted (fun _ => .ok ()) (construct "foo" ["a", "b"] 2) rows).purgeRemainingInserts
      (fun _ => .ok ())).2
    t.executions.flatMap t.rowsOf = rows ↔
      (∀ r ∈ rows, r.length = 2) ∧ (remaining 2 rows).reverse = remaining 2 rows :=
  rows_in_order_iff (fun _ => .ok ()) (fun _ => rfl) "foo" ["a", "b"] 2 _ (by decide)

/-- Two rows behind the last full batch change places. -/
theorem remaining_rows_reversed :
    let rows : List (List (Val String)) := [[some "1"], [some "2"], [some "3"], [some "4"], [some "5"]]
    let t := ((inserted (fun _ => .ok ()) (construct "foo" ["a"] 3) rows).purgeRemainingInserts
      (fun _ => .ok ())).2
    t.executions.flatMap t.rowsOf =
      [[some "1"], [some "2"], [some "3"], [some "5"], [some "4"]] := by
  decide

end PDOMultiLineInserter

end

end RubbishStore.Pdo
