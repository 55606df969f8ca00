import RubbishStore.Pdo.MultiLineInserter

/- `PDOMultiLineInserter` when an execute may fail. `insertRow` keeps the batch its
   multi-row statement has refused; `purgeRemainingInserts` has taken the row out
   of the buffer before it executes it, and takes it off the count only
   afterwards. So the rows stay accounted for exactly as long as no one-row
   execute fails (`accounted_iff`). -/
namespace RubbishStore.Pdo
open RubbishStore.Lib

section
variable {V : Type}

namespace PDOMultiLineInserter

/-- A call of a user of the inserter. -/
inductive Call (V : Type) where
  | insertRow (rowData : List (Val V))
  | purgeRemainingInserts
  deriving DecidableEq, Repr

/-- The rows that the calls submit. -/
def submitted (calls : List (Call V)) : List (List (Val V)) :=
  calls.filterMap fun
    | .insertRow rowData => some rowData
    | .purgeRemainingInserts => none

/-- The inserter after a call. -/
def step (answers : Answers) (s : PDOMultiLineInserter V) :
    Call V → PDOMultiLineInserter V
  | .insertRow rowData => (s.insertRow answers rowData).2
  | .purgeRemainingInserts => (s.purgeRemainingInserts answers).2

/-- The delivered rows and the rows in the buffer are the submitted ones, the
    counter counts the latter, and a purge without a failure delivers them all. -/
def Accounted (s : PDOMultiLineInserter V) (rows : List (List (Val V))) : Prop :=
  ∃ buffered,
    (s.currentlyInsertingRows = buffered.flatten ∧ ∀ r ∈ buffered, r.length = s.numberOfFields) ∧
    (s.delivered ++ buffered).Perm rows ∧
    s.currentlyInsertingCount = buffered.length ∧
    ∀ answers : Answers, (∀ i, answers (s.executions.length + i) = .ok ()) →
      let t := (s.purgeRemainingInserts answers).2
      t.delivered.Perm rows ∧ t.currentlyInsertingRows = [] ∧ t.currentlyInsertingCount = 0

/-- None of the executes of a purge fails: there is one for each row counted. -/
def Purges (answers : Answers) (s : PDOMultiLineInserter V) : Call V → Prop
  | .insertRow _ => True
  | .purgeRemainingInserts =>
    ∀ i < s.currentlyInsertingCount, answers (s.executions.length + i) = .ok ()

/-- With `n` fields and batches of `k` rows: `sent` has been delivered and
    `buffered` waits. -/
structure Accounts (n k : Nat) (s : PDOMultiLineInserter V) (sent buffered : List (List (Val V))) :
    Prop where
  fields : s.numberOfFields = n
  batch : s.purgeAtCount = k
  buffer : s.currentlyInsertingRows = buffered.flatten
  count : s.currentlyInsertingCount = buffered.length
  widths : ∀ r ∈ buffered, r.length = n
  delivered_eq : s.delivered = sent

section
variable (answers : Answers) {n k : Nat} {s : PDOMultiLineInserter V}
  {sent buffered : List (List (Val V))}

/-- An execution adds its rows to the delivered ones if it is accepted. -/
theorem delivered_append (s : PDOMultiLineInserter V) (e : Execution V)
    {t : PDOMultiLineInserter V} (hexec : t.executions = s.executions ++ [e])
    (hfields : t.numberOfFields = s.numberOfFields) (hbatch : t.purgeAtCount = s.purgeAtCount) :
    t.delivered = s.delivered ++ if e.accepted then s.rowsOf e else [] := by
  have hrows : t.rowsOf = s.rowsOf := by
    funext e
    rw [rowsOf, rowsOf, hfields, hbatch]
  rw [delivered, delivered, hexec, hrows, List.filter_append, List.flatMap_append]
  cases he : e.accepted <;> simp [he]

theorem Accounts.insertRow (h : Accounts n k s sent buffered) {row : List (Val V)}
    (hrow : row.length = n) :
    ∃ sent' buffered', Accounts n k (s.insertRow answers row).2 sent' buffered' ∧
      sent' ++ buffered' = sent ++ buffered ++ [row] := by
  have hwidths : ∀ r ∈ buffered ++ [row], r.length = n := length_of_mem_concat h.widths hrow
  have hbuffer : s.currentlyInsertingRows ++ row = (buffered ++ [row]).flatten := by
    rw [h.buffer, flatten_concat]
  have hcount : s.currentlyInsertingCount + 1 = (buffered ++ [row]).length := by
    rw [h.count, List.length_append, List.length_singleton]
  by_cases hfull : s.currentlyInsertingCount + 1 = s.purgeAtCount
  · have hrows := groups_full h.fields h.buffer h.count h.widths hrow hfull
    cases hanswer : answers s.executions.length with
    | error info =>
      -- the batch was refused: it stays in the buffer
      refine ⟨sent, buffered ++ [row], ?_, (List.append_assoc _ _ _).symm⟩
      simp only [PDOMultiLineInserter.insertRow, if_pos hfull, execute, hanswer]
      refine ⟨h.fields, h.batch, hbuffer, hcount, hwidths, ?_⟩
      refine Eq.trans (delivered_append s ⟨true, _, false⟩ rfl rfl rfl) ?_
      rw [if_neg Bool.false_ne_true, List.append_nil, h.delivered_eq]
    | ok u =>
      refine ⟨sent ++ (buffered ++ [row]), [], ?_, by simp⟩
      simp only [PDOMultiLineInserter.insertRow, if_pos hfull, execute, hanswer]
      refine ⟨h.fields, h.batch, rfl, rfl, by simp, ?_⟩
      refine Eq.trans (delivered_append s ⟨true, _, true⟩ rfl rfl rfl) ?_
      rw [if_pos rfl, h.delivered_eq]
      exact congrArg (sent ++ ·) hrows
  · refine ⟨sent, buffered ++ [row], ?_, (List.append_assoc _ _ _).symm⟩
    simp only [PDOMultiLineInserter.insertRow, if_neg hfull]
    exact ⟨h.fields, h.batch, hbuffer, hcount, hwidths, h.delivered_eq⟩

/-- The inner loop takes the last waiting row out of the buffer. -/
theorem Accounts.popRow {row : List (Val V)} (h : Accounts n k s sent (buffered ++ [row])) :
    popRow s.numberOfFields [] s.currentlyInsertingRows = (row, buffered.flatten) := by
  rw [h.buffer, h.fields]
  exact popRow_concat (h.widths row (by simp))

theorem Accounts.count_concat {row : List (Val V)} (h : Accounts n k s sent (buffered ++ [row])) :
    s.currentlyInsertingCount = buffered.length + 1 := by
  rw [h.count, List.length_append, List.length_singleton]

/-- A purge sends the waiting rows one by one, the last one first. -/
theorem Accounts.purgeLoop (h : Accounts n k s sent buffered)
    (hok : ∀ i < buffered.length, answers (s.executions.length + i) = .ok ()) :
    Accounts n k (purgeLoop answers buffered.length s).2 (sent ++ buffered.reverse) [] := by
  induction buffered using List.reverseRecOn generalizing s sent with
  | nil =>
    rw [List.reverse_nil, List.append_nil]
    exact h
  | append_singleton buffered row ih =>
    have hpop := h.popRow
    have hcount := h.count_concat
    have hpos : 0 < s.currentlyInsertingCount := by omega
    have hfirst : answers s.executions.length = .ok () := hok 0 (by simp)
    rw [List.length_append, List.length_singleton, List.reverse_append, List.reverse_singleton,
      ← List.append_assoc]
    simp only [PDOMultiLineInserter.purgeLoop, if_pos hpos, hpop, execute, hfirst]
    apply ih
    · refine ⟨h.fields, h.batch, rfl, by rw [hcount]; rfl, fun r hr => h.widths r (by simp [hr]), ?_⟩
      refine Eq.trans (delivered_append s ⟨false, _, true⟩ rfl rfl rfl) ?_
      rw [if_pos rfl, h.delivered_eq]
      rfl
    · intro i hi
      have hnext := hok (i + 1) (by simp only [List.length_append, List.length_singleton]; omega)
      rw [List.length_append, List.length_singleton, Nat.add_assoc, Nat.add_comm 1 i]
      exact hnext

/-- The first failure of a purge has taken one row more out of the buffer than
    off the count. -/
theorem Accounts.purgeLoop_fails (h : Accounts n k s sent buffered) (hn : 0 < n)
    {i : Nat} (hi : i < buffered.length) (hfail : answers (s.executions.length + i) ≠ .ok ()) :
    let t := (PDOMultiLineInserter.purgeLoop answers buffered.length s).2
    t.numberOfFields = n ∧ t.currentlyInsertingRows.length < t.currentlyInsertingCount * n := by
  induction buffered using List.reverseRecOn generalizing s sent i with
  | nil => exact absurd hi (Nat.not_lt_zero i)
  | append_singleton buffered row ih =>
    have hpop := h.popRow
    have hcount := h.count_concat
    have hpos : 0 < s.currentlyInsertingCount := by omega
    have hwidths : ∀ r ∈ buffered, r.length = n := fun r hr => h.widths r (by simp [hr])
    rw [List.length_append, List.length_singleton]
    cases hanswer : answers s.executions.length with
    | error info =>
      simp only [PDOMultiLineInserter.purgeLoop, if_pos hpos, hpop, execute, hanswer]
      refine ⟨h.fields, ?_⟩
      rw [length_flatten_rows hwidths, hcount, Nat.succ_mul]
      omega
    | ok u =>
      simp only [PDOMultiLineInserter.purgeLoop, if_pos hpos, hpop, execute, hanswer]
      cases i with
      | zero => exact absurd hanswer hfail
      | succ i =>
        refine ih (i := i) (?_ : Accounts n k _ (sent ++ [row]) buffered) ?_ ?_
        · refine ⟨h.fields, h.batch, rfl, by rw [hcount]; rfl, hwidths, ?_⟩
          refine Eq.trans (delivered_append s ⟨false, _, true⟩ rfl rfl rfl) ?_
          rw [if_pos rfl, h.delivered_eq]
          rfl
        · rw [List.length_append, List.length_singleton] at hi
          omega
        · rw [List.length_append, List.length_singleton, Nat.add_assoc, Nat.add_comm 1 i]
          exact hfail

theorem Accounts.accounted (h : Accounts n k s sent buffered) {rows : List (List (Val V))}
    (hrows : (sent ++ buffered).Perm rows) : s.Accounted rows := by
  refine ⟨buffered, ⟨h.buffer, fun r hr => (h.widths r hr).trans h.fields.symm⟩, ?_, h.count, ?_⟩
  · rw [h.delivered_eq]
    exact hrows
  · intro answers hok t
    have hpurged := h.purgeLoop answers fun i _ => hok i
    rw [← h.count] at hpurged
    refine ⟨?_, hpurged.buffer, hpurged.count⟩
    rw [show t.delivered = sent ++ buffered.reverse from hpurged.delivered_eq]
    exact ((List.reverse_perm buffered).append_left sent).trans hrows

/-- A call keeps the rows accounted for, unless it is a purge in which an
    execute fails. -/
theorem Accounts.step (h : Accounts n k s sent buffered) (hn : 0 < n) {call : Call V}
    (hcall : ∀ r ∈ submitted [call], r.length = n) :
    (s.Purges answers call →
      ∃ sent' buffered', Accounts n k (s.step answers call) sent' buffered' ∧
        (sent' ++ buffered').Perm (sent ++ buffered ++ submitted [call])) ∧
    (∀ rows, (s.step answers call).Accounted rows → s.Purges answers call) := by
  cases call with
  | insertRow rowData =>
    refine ⟨fun _ => ?_, fun _ _ => trivial⟩
    obtain ⟨sent', buffered', h', happ⟩ :=
      h.insertRow answers (hcall rowData (by simp [submitted]))
    exact ⟨sent', buffered', h', List.Perm.of_eq happ⟩
  | purgeRemainingInserts =>
    constructor
    · intro hok
      rw [Purges, h.count] at hok
      have hpurged := h.purgeLoop answers hok
      rw [← h.count] at hpurged
      refine ⟨_, _, hpurged, ?_⟩
      simpa [submitted] using (List.reverse_perm buffered).append_left sent
    · intro rows hacc i hi
      by_contra hfail
      rw [h.count] at hi
      obtain ⟨hfields, hlt⟩ := h.purgeLoop_fails answers hn hi hfail
      rw [← h.count] at hfields hlt
      obtain ⟨rest, ⟨hbuffer, hwidths⟩, -, hcount, -⟩ := hacc
      have hlen := length_flatten_rows hwidths
      rw [← hbuffer, ← hcount] at hlen
      exact absurd (hlen.trans (congrArg _ hfields)) (Nat.ne_of_lt hlt)

theorem submitted_cons (call : Call V) (calls : List (Call V)) :
    submitted (call :: calls) = submitted [call] ++ submitted calls := by
  cases call <;> rfl

theorem Accounts.run_iff (h : Accounts n k s sent buffered) (hn : 0 < n)
    {rows : List (List (Val V))} (hrows : (sent ++ buffered).Perm rows) {calls : List (Call V)}
    (hcalls : ∀ r ∈ submitted calls, r.length = n) :
    (∀ pre post, calls = pre ++ post →
      (run (PDOMultiLineInserter.step answers) s pre).Accounted (rows ++ submitted pre)) ↔
      AtEach (PDOMultiLineInserter.step answers) (Purges answers) s calls := by
  induction calls generalizing s sent buffered rows with
  | nil =>
    refine iff_of_true ?_ trivial
    intro pre post hsplit
    obtain ⟨rfl, rfl⟩ := List.append_eq_nil_iff.mp hsplit.symm
    exact h.accounted (by rwa [submitted, List.filterMap_nil, List.append_nil])
  | cons call calls ih =>
    rw [submitted_cons] at hcalls
    obtain ⟨hkeeps, hneeds⟩ := h.step answers hn fun r hr =>
      hcalls r (List.mem_append_left _ hr)
    have hrest : s.Purges answers call →
        ((∀ pre post, calls = pre ++ post →
          (run (PDOMultiLineInserter.step answers) (s.step answers call) pre).Accounted
            (rows ++ submitted (call :: pre))) ↔
          AtEach (PDOMultiLineInserter.step answers) (Purges answers) (s.step answers call)
            calls) := by
      intro hpurges
      obtain ⟨sent', buffered', h', hperm⟩ := hkeeps hpurges
      have hrows' : (sent' ++ buffered').Perm (rows ++ submitted [call]) :=
        hperm.trans (hrows.append_right _)
      have hiff := ih h' hrows' fun r hr => hcalls r (List.mem_append_right _ hr)
      simp only [List.append_assoc, ← submitted_cons] at hiff
      exact hiff
    constructor
    · intro hacc
      have hpurges := hneeds _ (hacc [call] calls rfl)
      refine ⟨hpurges, (hrest hpurges).mp ?_⟩
      intro pre post heq
      obtain rfl := heq
      exact hacc (call :: pre) post rfl
    · intro hboth pre post hsplit
      obtain ⟨hpurges, hafter⟩ := hboth
      cases pre with
      | nil => exact h.accounted (by rwa [submitted, List.filterMap_nil, List.append_nil])
      | cons call' pre =>
        obtain ⟨rfl, rfl⟩ := List.cons_eq_cons.mp hsplit
        exact (hrest hpurges).mpr hafter pre post rfl

end

/-- The rows are accounted for after every call exactly when no execute of a
    purge fails; the multi-row executes may. -/
theorem accounted_iff (answers : Answers) (tableName : String) (fieldsAsArray : List String)
    (bigInsertCount : Nat) (hf : fieldsAsArray ≠ []) (calls : List (Call V))
    (hrows : ∀ r ∈ submitted calls, r.length = fieldsAsArray.length) :
    (∀ pre post, calls = pre ++ post →
      (run (step answers) (construct tableName fieldsAsArray bigInsertCount) pre).Accounted
        (submitted pre)) ↔
      AtEach (step answers) (Purges answers) (construct tableName fieldsAsArray bigInsertCount)
        calls := by
  have hstart : Accounts fieldsAsArray.length bigInsertCount
      (construct (V := V) tableName fieldsAsArray bigInsertCount) [] [] :=
    ⟨rfl, rfl, rfl, rfl, by simp, rfl⟩
  exact hstart.run_iff answers (List.length_pos_of_ne_nil hf) (List.Perm.refl []) hrows

/-- The multi-row execute is refused, a later purge delivers the rows. -/
theorem accounted_iff_refused_batch :
    let answers : Answers := fun k => if k = 0 then .error ["HY000"] else .ok ()
    let calls : List (Call String) := [.insertRow [some "1"], .insertRow [some "2"],
      .insertRow [some "3"], .purgeRemainingInserts]
    ∀ pre post, calls = pre ++ post →
      (run (step answers) (construct "foo" ["a"] 2) pre).Accounted (submitted pre) :=
  (accounted_iff _ "foo" ["a"] 2 (by decide) _ (by decide)).mpr (by
    refine ⟨trivial, trivial, trivial, ?_, trivial⟩
    intro i hi
    exact if_neg (Nat.succ_ne_zero _ ∘ (Nat.add_comm _ _).trans))

/-- The second row is popped, its execute fails: the next purge sends the first
    row and then a row of nulls. -/
theorem refused_row_lost :
    let answers : Answers := fun k => if k = 0 then .error ["HY000"] else .ok ()
    let calls : List (Call String) := [.insertRow [some "1"], .insertRow [some "2"],
      .purgeRemainingInserts]
    let s := run (step answers) (construct "foo" ["a"] 100) calls
    ¬ s.Accounted (submitted calls) ∧ s.currentlyInsertingRows = [some "1"] ∧
      s.currentlyInsertingCount = 2 ∧
      (s.step answers .purgeRemainingInserts).delivered = [[some "1"], [none]] := by
  refine ⟨?_, by decide, by decide, by decide⟩
  intro h
  obtain ⟨rows, -, -, -, hlater⟩ := h
  exact absurd (hlater (fun _ => .ok ()) fun _ => rfl).1 (by decide)

end PDOMultiLineInserter

end

end RubbishStore.Pdo
