import Mathlib.Data.List.Induction
import RubbishStore.Lib.Runs
import RubbishStore.Pdo.Statement

/- `PDOMultiLineInserter` of `php/pdo/pdo_test.php`: rows are flattened into one
   buffer of values, sent through a prepared insert of `_purgeAtCount` rows each
   time so many are buffered, and the remaining ones through a prepared insert of
   one row, read back from the end of the buffer value by value.
   `Answers` are the answers of the two statements, execution after execution.
   `executions` is a ghost field: every execution, in order. -/
namespace RubbishStore.Pdo
open RubbishStore.Lib

section
variable {V : Type}

/-- What the `k`-th execution answers: nothing, or the `errorInfo` behind FALSE. -/
abbrev Answers : Type := Nat → Except (List String) Unit

/-- An execution of the multi-row (`big`) or of the one-row statement. -/
structure Execution (V : Type) where
  big : Bool
  values : List (Val V)
  accepted : Bool
  deriving DecidableEq, Repr

structure PDOMultiLineInserter (V : Type) where
  purgeAtCount : Nat
  bigInsertQuery : String
  singleInsertQuery : String
  currentlyInsertingRows : List (Val V) := []
  currentlyInsertingCount : Nat := 0
  numberOfFields : Nat
  error : Option String := none
  insertCount : Nat := 0
  /-- ghost: the executions so far -/
  executions : List (Execution V) := []
  deriving DecidableEq, Repr

/-- `str_repeat`. -/
def strRepeat (s : String) : Nat → String
  | 0 => ""
  | n + 1 => s ++ strRepeat s n

/-- `k` groups of `n` values each, as a statement of `k` rows reads its values. -/
def groups {α : Type} (n : Nat) : Nat → List α → List (List α)
  | 0, _ => []
  | k + 1, xs => xs.take n :: groups n k (xs.drop n)

namespace PDOMultiLineInserter

/-- `__construct`. -/
def construct (tableName : String) (fieldsAsArray : List String) (bigInsertCount : Nat := 100) :
    PDOMultiLineInserter V :=
  let numberOfFields := fieldsAsArray.length
  let insertIntoPortion :=
    "INSERT INTO `" ++ tableName ++ "` (`" ++ implode "`,`" fieldsAsArray ++ "`) VALUES"
  let questionMarks := " (?" ++ strRepeat ",?" (numberOfFields - 1) ++ ")"
  { purgeAtCount := bigInsertCount
    bigInsertQuery :=
      insertIntoPortion ++ questionMarks ++ strRepeat (", " ++ questionMarks) (bigInsertCount - 1)
    singleInsertQuery := insertIntoPortion ++ questionMarks
    numberOfFields := numberOfFields }

/-- `execute` on one of the two statements. -/
def execute (answers : Answers) (s : PDOMultiLineInserter V) (big : Bool) (values : List (Val V)) :
    Except (List String) Unit × PDOMultiLineInserter V :=
  let answer := answers s.executions.length
  (answer, { s with executions := s.executions ++ [⟨big, values, answer matches .ok _⟩] })

def insertRow (answers : Answers) (s : PDOMultiLineInserter V) (rowData : List (Val V)) :
    Bool × PDOMultiLineInserter V :=
  let s := { s with
    currentlyInsertingRows := s.currentlyInsertingRows ++ rowData
    currentlyInsertingCount := s.currentlyInsertingCount + 1 }
  if s.currentlyInsertingCount = s.purgeAtCount then
    match s.execute answers true s.currentlyInsertingRows with
    | (.error info, s) =>
      (false, { s with
        error := some ("Failed to perform a multi-insert (after " ++ toString s.insertCount ++
          " inserts), the following errors occurred:" ++ implode "<br/>" info) })
    | (.ok _, s) =>
      (true, { s with
        insertCount := s.insertCount + 1
        currentlyInsertingCount := 0
        currentlyInsertingRows := [] })
  else (true, s)

/-- The inner loop of `purgeRemainingInserts`: `n` values from the end of the
    buffer to the front of the row; `array_pop` of an empty array is null. -/
def popRow : Nat → List (Val V) → List (Val V) → List (Val V) × List (Val V)
  | 0, singleInsertData, buffer => (singleInsertData, buffer)
  | n + 1, singleInsertData, buffer =>
    popRow n (buffer.getLast?.join :: singleInsertData) buffer.dropLast

/-- The outer loop, for at most `fuel` rounds: false, or null at its end. -/
def purgeLoop (answers : Answers) :
    Nat → PDOMultiLineInserter V → Option Bool × PDOMultiLineInserter V
  | 0, s => (none, s)
  | fuel + 1, s =>
    if 0 < s.currentlyInsertingCount then
      let (singleInsertData, buffer) := popRow s.numberOfFields [] s.currentlyInsertingRows
      match { s with currentlyInsertingRows := buffer }.execute answers false singleInsertData with
      | (.error info, s) =>
        (some false, { s with
          error := some ("Failed to perform a small-insert (whilst purging the remaining rows; " ++
            "the following errors occurred:" ++ implode "<br/>" info) })
      | (.ok _, s) =>
        purgeLoop answers fuel { s with currentlyInsertingCount := s.currentlyInsertingCount - 1 }
    else (none, s)

/-- `purgeRemainingInserts`: a round takes one from the count, so the count
    bounds the rounds. -/
def purgeRemainingInserts (answers : Answers) (s : PDOMultiLineInserter V) :
    Option Bool × PDOMultiLineInserter V :=
  purgeLoop answers s.currentlyInsertingCount s

/-- The rows an execution sends. -/
def rowsOf (s : PDOMultiLineInserter V) (e : Execution V) : List (List (Val V)) :=
  if e.big then groups s.numberOfFields s.purgeAtCount e.values else [e.values]

/-- The rows of the executions that were accepted. -/
def delivered (s : PDOMultiLineInserter V) : List (List (Val V)) :=
  (s.executions.filter (·.accepted)).flatMap s.rowsOf

end PDOMultiLineInserter

/-! Placeholders of the two statements. -/

theorem marks_strRepeat (s : String) (n : Nat) : marks (strRepeat s n) = n * marks s := by
  induction n with
  | zero => rw [Nat.zero_mul]; rfl
  | succ n ih => rw [strRepeat, marks_append, ih, Nat.succ_mul, Nat.add_comm]

/-- The multi-row statement binds a value for each field of `bigInsertCount`
    rows, the other one for each field of one row. -/
theorem PDOMultiLineInserter.marks_queries (tableName : String) (fieldsAsArray : List String)
    (bigInsertCount : Nat) (ht : marks tableName = 0) (hf : ∀ f ∈ fieldsAsArray, marks f = 0)
    (hn : fieldsAsArray ≠ []) (hb : 0 < bigInsertCount) :
    let s : PDOMultiLineInserter V := construct tableName fieldsAsArray bigInsertCount
    marks s.bigInsertQuery = s.purgeAtCount * s.numberOfFields ∧
      marks s.singleInsertQuery = s.numberOfFields := by
  have hlen : 0 < fieldsAsArray.length := List.length_pos_of_ne_nil hn
  have hinto : marks ("INSERT INTO `" ++ tableName ++ "` (`" ++ implode "`,`" fieldsAsArray ++
      "`) VALUES") = 0 := by
    have hfields : (fieldsAsArray.map marks).sum = 0 :=
      List.sum_eq_zero_iff_forall_eq_nat.mpr fun n hn => by
        obtain ⟨f, hmem, rfl⟩ := List.mem_map.mp hn
        exact hf f hmem
    simp (disch := decide) only [marks_append, marks_lit, marks_implode, ht, hfields]
  have hmarks : marks (" (?" ++ strRepeat ",?" (fieldsAsArray.length - 1) ++ ")") =
      fieldsAsArray.length := by
    have h1 : marks " (?" = 1 := by decide
    have h2 : marks ",?" = 1 := by decide
    rw [marks_append, marks_append, marks_strRepeat, h1, h2, marks_lit (by decide)]
    omega
  have hrow : marks (", " ++ (" (?" ++ strRepeat ",?" (fieldsAsArray.length - 1) ++ ")")) =
      fieldsAsArray.length := by
    rw [marks_append, hmarks, marks_lit (by decide), Nat.zero_add]
  simp only [construct]
  refine ⟨?_, ?_⟩
  · rw [marks_append, marks_append, marks_strRepeat, hinto, hmarks, hrow, Nat.zero_add]
    calc fieldsAsArray.length + (bigInsertCount - 1) * fieldsAsArray.length
        = (bigInsertCount - 1 + 1) * fieldsAsArray.length := by rw [Nat.succ_mul, Nat.add_comm]
      _ = bigInsertCount * fieldsAsArray.length := by rw [Nat.sub_add_cancel hb]
  · rw [marks_append, hinto, hmarks, Nat.zero_add]

/-! Rows in the buffer. -/

/-- Rows of `n` values each, flattened and grouped again. -/
theorem groups_flatten {α : Type} {n : Nat} {rows : List (List α)} (h : ∀ r ∈ rows, r.length = n) :
    groups n rows.length rows.flatten = rows := by
  induction rows with
  | nil => rfl
  | cons r rows ih =>
    have hr : r.length = n := h r (by simp)
    have hrest := ih fun r' hr' => h r' (List.mem_cons_of_mem _ hr')
    rw [List.length_cons, List.flatten_cons, groups, ← hr, List.take_left, List.drop_left, hr, hrest]

theorem length_flatten_rows {α : Type} {n : Nat} {rows : List (List α)}
    (h : ∀ r ∈ rows, r.length = n) : rows.flatten.length = rows.length * n := by
  induction rows with
  | nil => simp
  | cons r rows ih =>
    have hr : r.length = n := h r (by simp)
    have hrest := ih fun r' hr' => h r' (List.mem_cons_of_mem _ hr')
    rw [List.flatten_cons, List.length_append, hr, hrest, List.length_cons, Nat.succ_mul, Nat.add_comm]

theorem length_of_mem_concat {α : Type} {n : Nat} {rows : List (List α)} {row : List α}
    (h : ∀ r ∈ rows, r.length = n) (hrow : row.length = n) : ∀ r ∈ rows ++ [row], r.length = n := by
  intro r hr
  rcases List.mem_append.mp hr with hr | hr
  · exact h r hr
  · rw [List.mem_singleton.mp hr, hrow]

theorem flatten_concat {α : Type} (rows : List (List α)) (row : List α) :
    (rows ++ [row]).flatten = rows.flatten ++ row := by
  rw [List.flatten_append, List.flatten_singleton]

namespace PDOMultiLineInserter

/-- The inner loop takes the last row off the buffer, its values in order. -/
theorem popRow_append (row acc buffer : List (Val V)) :
    popRow row.length acc (buffer ++ row) = (row ++ acc, buffer) := by
  induction row using List.reverseRecOn generalizing acc with
  | nil => simp [popRow]
  | append_singleton row v ih =>
    rw [List.length_append, List.length_singleton, popRow, ← List.append_assoc,
      List.getLast?_append_of_ne_nil _ (List.cons_ne_nil v []), List.dropLast_concat, ih]
    simp

theorem popRow_concat {n : Nat} {rows : List (List (Val V))} {row : List (Val V)}
    (hrow : row.length = n) : popRow n [] (rows ++ [row]).flatten = (row, rows.flatten) := by
  rw [flatten_concat, ← hrow, popRow_append, List.append_nil]

theorem length_groups {α : Type} (n k : Nat) (xs : List α) : (groups n k xs).length = k := by
  induction k generalizing xs with
  | zero => rfl
  | succ k ih => exact congrArg (· + 1) (ih _)

/-- The row that completes a batch: the buffer and it are grouped into the rows that
    they were. -/
theorem groups_full {n : Nat} {s : PDOMultiLineInserter V} {buffered : List (List (Val V))}
    {row : List (Val V)} (hfields : s.numberOfFields = n)
    (hbuffer : s.currentlyInsertingRows = buffered.flatten)
    (hcount : s.currentlyInsertingCount = buffered.length) (hwidths : ∀ r ∈ buffered, r.length = n)
    (hrow : row.length = n) (hfull : s.currentlyInsertingCount + 1 = s.purgeAtCount) :
    groups s.numberOfFields s.purgeAtCount (s.currentlyInsertingRows ++ row) =
      buffered ++ [row] := by
  have hlength : s.purgeAtCount = (buffered ++ [row]).length := by
    rw [← hfull, hcount, List.length_append, List.length_singleton]
  rw [hfields, hlength, hbuffer, ← flatten_concat,
    groups_flatten (length_of_mem_concat hwidths hrow)]

/-- With `n` fields and batches of `k` rows: the rows `sent` have been executed,
    the rows `buffered` wait, and every multi-row execution had a batch. -/
structure Holds (n k : Nat) (s : PDOMultiLineInserter V) (sent buffered : List (List (Val V))) :
    Prop where
  fields : s.numberOfFields = n
  batch : s.purgeAtCount = k
  buffer : s.currentlyInsertingRows = buffered.flatten
  count : s.currentlyInsertingCount = buffered.length
  widths : ∀ r ∈ buffered, r.length = n
  sent_eq : s.executions.flatMap s.rowsOf = sent
  batches : ∀ e ∈ s.executions, e.big = true → e.values.length = k * n ∧ (s.rowsOf e).length = k

section
variable {answers : Answers} (hok : ∀ i, answers i = .ok ()) {n k : Nat}
  {s : PDOMultiLineInserter V} {sent buffered : List (List (Val V))}
include hok

/-- The row that completes a batch has it executed, and any other row waits. -/
theorem Holds.insertRow_cases (h : Holds n k s sent buffered) {row : List (Val V)}
    (hrow : row.length = n) :
    if buffered.length + 1 = k then
      Holds n k (s.insertRow answers row).2 (sent ++ (buffered ++ [row])) []
    else Holds n k (s.insertRow answers row).2 sent (buffered ++ [row]) := by
  have hwidths : ∀ r ∈ buffered ++ [row], r.length = n := length_of_mem_concat h.widths hrow
  have hbuffer : s.currentlyInsertingRows ++ row = (buffered ++ [row]).flatten := by
    rw [h.buffer, flatten_concat]
  have hcount : s.currentlyInsertingCount + 1 = (buffered ++ [row]).length := by
    rw [h.count, List.length_append, List.length_singleton]
  have hbatch : buffered.length + 1 = k ↔ s.currentlyInsertingCount + 1 = s.purgeAtCount := by
    rw [h.count, h.batch]
  by_cases hfull : s.currentlyInsertingCount + 1 = s.purgeAtCount
  · rw [if_pos (hbatch.mpr hfull)]
    have hrows := groups_full h.fields h.buffer h.count h.widths hrow hfull
    simp only [PDOMultiLineInserter.insertRow, if_pos hfull, execute, hok]
    refine ⟨h.fields, h.batch, rfl, rfl, by simp, ?_, ?_⟩
    · simp only [List.flatMap_append, List.flatMap_singleton]
      exact congrArg₂ (· ++ ·) h.sent_eq hrows
    · intro e he hbig
      rcases List.mem_append.mp he with he | he
      · exact h.batches e he hbig
      · obtain rfl := List.mem_singleton.mp he
        have hlen := length_flatten_rows hwidths
        rw [← hbuffer, ← hcount, hfull, h.batch] at hlen
        exact ⟨hlen, (length_groups _ _ _).trans h.batch⟩
  · rw [if_neg fun hk => hfull (hbatch.mp hk)]
    simp only [PDOMultiLineInserter.insertRow, if_neg hfull]
    exact ⟨h.fields, h.batch, hbuffer, hcount, hwidths, h.sent_eq, h.batches⟩

/-- A purge sends the waiting rows one by one, the last one first. -/
theorem Holds.purgeLoop (h : Holds n k s sent buffered) :
    Holds n k (purgeLoop answers buffered.length s).2 (sent ++ buffered.reverse) [] ∧
      (PDOMultiLineInserter.purgeLoop answers buffered.length s).1 = none := by
  induction buffered using List.reverseRecOn generalizing s sent with
  | nil =>
    rw [List.reverse_nil, List.append_nil]
    exact ⟨h, rfl⟩
  | append_singleton buffered row ih =>
    have hpop : popRow s.numberOfFields [] s.currentlyInsertingRows = (row, buffered.flatten) := by
      rw [h.buffer, h.fields]
      exact popRow_concat (h.widths row (by simp))
    have hcount : s.currentlyInsertingCount = buffered.length + 1 := by
      rw [h.count, List.length_append, List.length_singleton]
    have hpos : 0 < s.currentlyInsertingCount := by omega
    rw [List.length_append, List.length_singleton, List.reverse_append, List.reverse_singleton,
      ← List.append_assoc]
    simp only [PDOMultiLineInserter.purgeLoop, if_pos hpos, hpop, execute, hok]
    apply ih
    refine ⟨h.fields, h.batch, rfl, by rw [hcount]; rfl, fun r hr => h.widths r (by simp [hr]), ?_, ?_⟩
    · simp only [List.flatMap_append, List.flatMap_singleton]
      exact congrArg (· ++ [row]) h.sent_eq
    · intro e he hbig
      rcases List.mem_append.mp he with he | he
      · exact h.batches e he hbig
      · obtain rfl := List.mem_singleton.mp he
        exact absurd hbig Bool.false_ne_true

end

/-- The inserter after rows have been inserted. -/
def inserted (answers : Answers) (s : PDOMultiLineInserter V) (rows : List (List (Val V))) :
    PDOMultiLineInserter V :=
  run (fun s row => (s.insertRow answers row).2) s rows

theorem succ_mod (m k : Nat) : (m + 1) % k = if m % k + 1 = k then 0 else m % k + 1 := by
  have hsplit : m + 1 = m % k + 1 + k * (m / k) := by
    have hdiv := Nat.mod_add_div m k
    omega
  rw [hsplit, Nat.add_mul_mod_self_left]
  split
  · next hfull => rw [hfull, Nat.mod_self]
  · next hwaits =>
    obtain rfl | hpos := Nat.eq_zero_or_pos k
    · rw [Nat.mod_zero]
    · have hlt := Nat.mod_lt m hpos
      exact Nat.mod_eq_of_lt (by omega)

/-- As many rows wait as are left when batches are taken away. -/
theorem holds_inserted_mod {answers : Answers} (hok : ∀ i, answers i = .ok ())
    (tableName : String) (fieldsAsArray : List String) (bigInsertCount : Nat)
    {rows : List (List (Val V))} (hrows : ∀ r ∈ rows, r.length = fieldsAsArray.length) :
    ∃ sent buffered,
      Holds fieldsAsArray.length bigInsertCount
        (inserted answers (construct tableName fieldsAsArray bigInsertCount) rows) sent buffered ∧
      sent ++ buffered = rows ∧ buffered.length = rows.length % bigInsertCount := by
  induction rows using List.reverseRecOn with
  | nil =>
    refine ⟨[], [], ⟨rfl, rfl, rfl, rfl, by simp, rfl, by simp [inserted, construct]⟩, rfl, ?_⟩
    exact (Nat.zero_mod bigInsertCount).symm
  | append_singleton rows row ih =>
    obtain ⟨sent, buffered, h, happ, hlength⟩ := ih fun r hr => hrows r (by simp [hr])
    have hcases := h.insertRow_cases hok (hrows row (by simp))
    have hstep : inserted answers (construct tableName fieldsAsArray bigInsertCount) (rows ++ [row]) =
        ((inserted answers (construct tableName fieldsAsArray bigInsertCount) rows).insertRow
          answers row).2 := by
      rw [inserted, run_append]
      rfl
    rw [hstep, List.length_append, List.length_singleton]
    -- the row fills a batch, and nothing waits, or it waits behind the others
    rw [succ_mod, ← hlength]
    split at hcases
    · next hfull => exact ⟨_, _, hcases, by rw [← happ]; simp, by rw [if_pos hfull]; rfl⟩
    · next hwaits =>
      exact ⟨_, _, hcases, by rw [← happ]; simp, by rw [if_neg hwaits]; exact List.length_append⟩

/-- The waiting rows are the last ones, and fewer than a batch. -/
theorem holds_inserted {answers : Answers} (hok : ∀ i, answers i = .ok ()) (tableName : String)
    (fieldsAsArray : List String) {bigInsertCount : Nat} (hb : 0 < bigInsertCount)
    {rows : List (List (Val V))} (hrows : ∀ r ∈ rows, r.length = fieldsAsArray.length) :
    ∃ sent buffered,
      Holds fieldsAsArray.length bigInsertCount
        (inserted answers (construct tableName fieldsAsArray bigInsertCount) rows) sent buffered ∧
      buffered.length < bigInsertCount ∧ sent ++ buffered = rows := by
  obtain ⟨sent, buffered, h, happ, hlength⟩ :=
    holds_inserted_mod hok tableName fieldsAsArray bigInsertCount hrows
  refine ⟨sent, buffered, h, ?_, happ⟩
  rw [hlength]
  exact Nat.mod_lt _ hb

/-- Every row reaches one of the two statements exactly once and as it is, the
    multi-row statement gets whole batches, and fewer than a batch of rows waits
    between two calls. -/
theorem inserted_rows_executed (answers : Answers) (hok : ∀ i, answers i = .ok ())
    (tableName : String) (fieldsAsArray : List String) (bigInsertCount : Nat)
    (hb : 1 ≤ bigInsertCount) (rows : List (List (Val V)))
    (hrows : ∀ r ∈ rows, r.length = fieldsAsArray.length) :
    let s₀ : PDOMultiLineInserter V := construct tableName fieldsAsArray bigInsertCount
    let t := ((inserted answers s₀ rows).purgeRemainingInserts answers).2
    (t.executions.flatMap t.rowsOf).Perm rows ∧
      (∀ e ∈ t.executions, e.big = true →
        e.values.length = bigInsertCount * fieldsAsArray.length ∧
          (t.rowsOf e).length = bigInsertCount) ∧
      (∀ pre post, rows = pre ++ post →
        let s := inserted answers s₀ pre
        s.currentlyInsertingRows.length = s.currentlyInsertingCount * s.numberOfFields ∧
          s.currentlyInsertingCount < bigInsertCount) ∧
      t.currentlyInsertingRows = [] ∧ t.currentlyInsertingCount = 0 := by
  intro s₀ t
  obtain ⟨sent, buffered, h, -, happ⟩ := holds_inserted hok tableName fieldsAsArray hb hrows
  have hpurged : Holds fieldsAsArray.length bigInsertCount t (sent ++ buffered.reverse) [] := by
    have hloop := (h.purgeLoop hok).1
    rw [← h.count] at hloop
    exact hloop
  refine ⟨?_, hpurged.batches, ?_, hpurged.buffer, hpurged.count⟩
  · rw [hpurged.sent_eq, ← happ]
    exact (List.reverse_perm buffered).append_left sent
  · rintro pre post rfl s
    have hpre : ∀ r ∈ pre, r.length = fieldsAsArray.length :=
      fun r hr => hrows r (List.mem_append_left post hr)
    obtain ⟨sent', buffered', h', hlt', -⟩ := holds_inserted hok tableName fieldsAsArray hb hpre
    refine ⟨?_, ?_⟩
    · rw [h'.buffer, h'.count, h'.fields, length_flatten_rows h'.widths]
    · rw [h'.count]
      exact hlt'

/-- Three rows of two fields, in batches of two. -/
theorem inserted_rows_executed_three :
    let rows : List (List (Val String)) :=
      [[some "1", none], [some "2", some "b"], [some "3", some "c"]]
    let s₀ : PDOMultiLineInserter String := construct "foo" ["a", "b"] 2
    let t := ((inserted (fun _ => .ok ()) s₀ rows).purgeRemainingInserts (fun _ => .ok ())).2
    (t.executions.flatMap t.rowsOf).Perm rows :=
  (inserted_rows_executed (fun _ => .ok ()) (fun _ => rfl) "foo" ["a", "b"] 2 (by decide) _
    (by decide)).1

end PDOMultiLineInserter

end

end RubbishStore.Pdo
