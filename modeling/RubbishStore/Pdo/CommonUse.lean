import RubbishStore.Lib.PhpText
import RubbishStore.Pdo.Statement

/- `Dao_Common_PdoCommonUse`: `fetchOne` and `fetchMultiple` spell the conditions in
   one loop and bind their values in another. The SQL is kept as the parts that are
   appended to it, each with the number of the condition it spells, and a bound value
   with the number of the condition it comes from; so the `?`s of the SQL and the
   parameters can be compared one by one (`Query.Matched`). -/
namespace RubbishStore.Pdo.CommonUse
open RubbishStore.Lib

section
variable {V : Type}

/-- A row of `$data`: field, value, type of the value, operator. The operator is set
    where `isset($row[3])`. -/
structure Condition (V : Type) where
  field : String
  value : Operand V
  type : Int
  operator : Option String := none
  deriving DecidableEq, Repr

/-- What is appended to `$sql`, and the condition it belongs to. -/
structure Part where
  owner : Option Nat := none
  text : String
  deriving DecidableEq, Repr

/-- A value given to `bindParam`, and the condition it comes from. -/
structure Bound (V : Type) where
  param : Nat
  value : Val V
  type : Int
  condition : Nat
  deriving DecidableEq, Repr

structure Query (V : Type) where
  parts : List Part
  bound : List (Bound V)
  deriving DecidableEq, Repr

/-- The properties of the object that the two functions read. -/
structure Dao where
  tableName : String
  fields : String := "*"
  slavePdoName : String := "slave"
  deriving DecidableEq, Repr

/-! Building the SQL. -/

/-- The `?`s of an `IN`; `j` is the number of those before. -/
def questionMarks : Nat → List (Val V) → String
  | _, [] => ""
  | j, _ :: vs => (if j = 0 then "?" else ",?") ++ questionMarks (j + 1) vs

def conditionText (row : Condition V) : String :=
  match row.value with
  | .list vs => row.field ++ " IN ( " ++ questionMarks 0 vs ++ ")"
  | .scalar _ =>
    (match row.operator with
      | some op => row.field ++ op ++ "?"
      | none => "") ++ (row.field ++ "=?")

/-- The loop over `$data`; `i` counts the rows before. -/
def conditionParts : Nat → List (Condition V) → List Part
  | _, [] => []
  | i, row :: data =>
    { text := if i = 0 then " WHERE " else " AND " } ::
      { owner := some i, text := conditionText row } :: conditionParts (i + 1) data

/-- `empty($s)`, and `$s == false`, for a string. -/
def emptyText (s : String) : Bool := s = "" || s = "0"

def trimText (s : String) : String := String.ofList (PhpText.trim Char.toNat s.toList)

/-- `$order`, which is false where there is none. -/
def orderText : Option String → String
  | some order => if emptyText order then "" else " " ++ trimText order
  | none => ""

def limitText : Option (String × String) → String
  | some limit => " LIMIT " ++ limit.1 ++ "," ++ limit.2
  | none => ""

/-- The SQL with its last part, which is where the two functions differ. -/
def sqlParts (dao : Dao) (data : List (Condition V)) (last : String) : List Part :=
  { text := "SELECT " ++ dao.fields ++ " FROM " ++ dao.tableName } ::
    conditionParts 0 data ++ [{ text := last }]

/-! Binding the values. -/

/-- The parameters of one row, after `binParamNum` others. -/
def bindRow (i : Nat) (type : Int) : Nat → List (Val V) → List (Bound V)
  | _, [] => []
  | binParamNum, v :: vs =>
    ⟨binParamNum + 1, v, type, i⟩ :: bindRow i type (binParamNum + 1) vs

def bindParams : Nat → Nat → List (Condition V) → List (Bound V)
  | _, _, [] => []
  | i, binParamNum, row :: data =>
    bindRow i row.type binParamNum row.value.values ++
      bindParams (i + 1) (binParamNum + row.value.values.length) data

/-! The two functions, up to the statement they execute. -/

/-- The checks at the front, and the texts of their exceptions. -/
def checked (dao : Dao) : Except String Unit :=
  if emptyText dao.slavePdoName then .error "pdo name error"
  else if emptyText dao.tableName then .error "table name error"
  else .ok ()

def fetchOne (dao : Dao) (data : List (Condition V)) (order : Option String := none) :
    Except String (Query V) := do
  checked dao
  return ⟨sqlParts dao data (orderText order ++ " LIMIT 1"), bindParams 0 0 data⟩

def fetchMultiple (dao : Dao) (data : List (Condition V)) (limit : Option (String × String) := none)
    (order : Option String := none) : Except String (Query V) := do
  checked dao
  return ⟨sqlParts dao data (orderText order ++ limitText limit), bindParams 0 0 data⟩

/-- The text handed to `prepare`. -/
def Query.sql (q : Query V) : String := q.parts.foldr (fun p sql => p.text ++ sql) ""

/-- For each `?` of the SQL, from left to right, the condition that it belongs to. -/
def Query.owners (q : Query V) : List (Option Nat) :=
  q.parts.flatMap fun p => List.replicate (marks p.text) p.owner

/-- There are as many `?`s as parameters, and the `?` of a parameter belongs to the
    condition that the parameter comes from. -/
def Query.Matched (q : Query V) : Prop :=
  marks q.sql = q.bound.length ∧
    ∀ b ∈ q.bound, q.owners[b.param - 1]? = some (some b.condition)

/-- A condition without `?`s in its names, and without an operator on a scalar. -/
def Condition.Plain (row : Condition V) : Prop :=
  marks row.field = 0 ∧
    match row.value with
    | .list _ => True
    | .scalar _ => row.operator = none

/-! Counting the placeholders. -/

theorem marks_questionMarks (j : Nat) (vs : List (Val V)) : marks (questionMarks j vs) = vs.length := by
  induction vs generalizing j with
  | nil => rfl
  | cons v vs ih =>
    have hmark : marks (if j = 0 then "?" else ",?") = 1 := by
      split <;> decide
    rw [questionMarks, marks_append, hmark, ih, List.length_cons, Nat.add_comm]

/-- A condition spells as many `?`s as it has values just when it is plain. -/
theorem marks_conditionText_iff (row : Condition V) :
    marks (conditionText row) = row.value.values.length ↔ row.Plain := by
  obtain ⟨field, value, type, operator⟩ := row
  have hequal : marks "=?" = 1 := by decide
  cases value with
  | list vs =>
    simp (disch := decide) only [conditionText, Condition.Plain, Operand.values, marks_append,
      marks_questionMarks, marks_lit, and_true]
    omega
  | scalar v =>
    cases operator with
    | none =>
      simp only [conditionText, Condition.Plain, Operand.values, marks_append, marks_empty, hequal,
        List.length_singleton, and_true]
      omega
    | some op =>
      simp only [conditionText, Condition.Plain, Operand.values, marks_append, hequal,
        marks_question, List.length_singleton, reduceCtorEq, and_false, iff_false]
      omega

theorem marks_sql (q : Query V) : marks q.sql = q.owners.length := by
  obtain ⟨parts, bound⟩ := q
  induction parts with
  | nil => rfl
  | cons p parts ih =>
    simp only [Query.sql, Query.owners, List.foldr_cons, marks_append, List.flatMap_cons,
      List.length_append, List.length_replicate] at ih ⊢
    rw [ih]

/-! The two loops, condition by condition. -/

/-- The owners of the `?`s that the loop spells. -/
theorem conditionParts_owners (i : Nat) (row : Condition V) (data : List (Condition V))
    (bound : List (Bound V)) :
    Query.owners ⟨conditionParts i (row :: data), bound⟩ =
      List.replicate (marks (conditionText row)) (some i) ++
        Query.owners ⟨conditionParts (i + 1) data, bound⟩ := by
  have hword : marks (if i = 0 then " WHERE " else " AND ") = 0 := by
    split <;> decide
  simp only [Query.owners, conditionParts, List.flatMap_cons, hword, List.replicate_zero,
    List.nil_append]

theorem bindRow_conditions (i : Nat) (type : Int) (k : Nat) (vs : List (Val V)) :
    (bindRow i type k vs).map (fun b => some b.condition) = List.replicate vs.length (some i) := by
  induction vs generalizing k with
  | nil => rfl
  | cons v vs ih => rw [bindRow, List.map_cons, ih, List.length_cons, List.replicate_succ]

theorem bindParams_conditions (i k : Nat) (row : Condition V) (data : List (Condition V)) :
    (bindParams i k (row :: data)).map (fun b => some b.condition) =
      List.replicate row.value.values.length (some i) ++
        (bindParams (i + 1) (k + row.value.values.length) data).map (fun b => some b.condition) := by
  rw [bindParams, List.map_append, bindRow_conditions]

theorem length_bindRow (i : Nat) (type : Int) (k : Nat) (vs : List (Val V)) :
    (bindRow i type k vs).length = vs.length := by
  simpa using congrArg List.length (bindRow_conditions i type k vs)

theorem bindRow_param (i : Nat) (type : Int) (k : Nat) (vs : List (Val V)) :
    (bindRow i type k vs).map Bound.param = List.range' (k + 1) vs.length := by
  induction vs generalizing k with
  | nil => rfl
  | cons v vs ih => rw [bindRow, List.map_cons, ih, List.length_cons, List.range'_succ]

/-- The parameters are numbered on without a gap. -/
theorem bindParams_param (i k : Nat) (data : List (Condition V)) :
    (bindParams i k data).map Bound.param = List.range' (k + 1) (bindParams i k data).length := by
  induction data generalizing i k with
  | nil => rfl
  | cons row data ih =>
    rw [bindParams, List.map_append, bindRow_param, ih, List.length_append, length_bindRow,
      Nat.add_right_comm k, List.range'_append_1]

theorem le_of_mem_owners {i j : Nat} {data : List (Condition V)} {bound : List (Bound V)}
    (h : some j ∈ Query.owners ⟨conditionParts i data, bound⟩) : i ≤ j := by
  induction data generalizing i with
  | nil => simp [Query.owners, conditionParts] at h
  | cons row data ih =>
    rw [conditionParts_owners, List.mem_append, List.mem_replicate] at h
    obtain ⟨-, h⟩ | h := h
    · exact Nat.le_of_eq (Option.some.inj h).symm
    · exact Nat.le_of_succ_le (ih h)

theorem le_of_mem_conditions {i j k : Nat} {data : List (Condition V)}
    (h : some j ∈ (bindParams i k data).map (fun b => some b.condition)) : i ≤ j := by
  induction data generalizing i k with
  | nil => simp [bindParams] at h
  | cons row data ih =>
    rw [bindParams_conditions, List.mem_append, List.mem_replicate] at h
    obtain ⟨-, h⟩ | h := h
    · exact Nat.le_of_eq (Option.some.inj h).symm
    · exact Nat.le_of_succ_le (ih h)

theorem replicate_append_inj {α : Type} [DecidableEq α] {a : α} {m n : Nat} {xs ys : List α}
    (hxs : a ∉ xs) (hys : a ∉ ys) (h : List.replicate m a ++ xs = List.replicate n a ++ ys) :
    m = n ∧ xs = ys := by
  have hcount := congrArg (List.count a) h
  rw [List.count_append, List.count_append, List.count_replicate_self, List.count_replicate_self,
    List.count_eq_zero_of_not_mem hxs, List.count_eq_zero_of_not_mem hys] at hcount
  obtain rfl : m = n := hcount
  exact ⟨rfl, List.append_cancel_left h⟩

/-- The two loops agree, condition by condition, just when every condition is plain:
    the `?`s of a condition stand together, and no other part has its number. -/
theorem owners_eq_iff (i k : Nat) (data : List (Condition V)) (bound : List (Bound V)) :
    Query.owners ⟨conditionParts i data, bound⟩ =
        (bindParams i k data).map (fun b => some b.condition) ↔
      ∀ row ∈ data, row.Plain := by
  induction data generalizing i k with
  | nil => simp [Query.owners, conditionParts, bindParams]
  | cons row data ih =>
    rw [conditionParts_owners, bindParams_conditions, List.forall_mem_cons,
      ← marks_conditionText_iff]
    refine ⟨fun h => ?_, fun ⟨hrow, hdata⟩ => ?_⟩
    · -- behind this condition its number does not come again
      have hspelled : some i ∉ Query.owners ⟨conditionParts (i + 1) data, bound⟩ :=
        fun hmem => Nat.not_succ_le_self i (le_of_mem_owners hmem)
      have hbound : some i ∉ (bindParams (i + 1) (k + row.value.values.length) data).map
          (fun b => some b.condition) :=
        fun hmem => Nat.not_succ_le_self i (le_of_mem_conditions hmem)
      obtain ⟨hrow, hdata⟩ := replicate_append_inj hspelled hbound h
      exact ⟨hrow, (ih (i + 1) _).mp hdata⟩
    · rw [hrow, (ih (i + 1) _).mpr hdata]

/-- The header and the last part have no `?`, and every condition is plain. -/
def Plain (dao : Dao) (data : List (Condition V)) (last : String) : Prop :=
  marks dao.fields = 0 ∧ marks dao.tableName = 0 ∧ marks last = 0 ∧ ∀ row ∈ data, row.Plain

/-- With parameters numbered in order, `Matched` compares two lists. -/
theorem matched_iff (q : Query V)
    (hparam : q.bound.map Bound.param = List.range' 1 q.bound.length) :
    q.Matched ↔ q.owners = q.bound.map (fun b => some b.condition) := by
  -- the parameter with the number `j + 1` is the one bound at `j`
  have hindex : ∀ j b, q.bound[j]? = some b → b.param - 1 = j := by
    intro j b hb
    have hget := congrArg (fun l : List Nat => l[j]?) hparam
    obtain ⟨hlt, -⟩ := List.getElem?_eq_some_iff.mp hb
    simp only [List.getElem?_map, hb, Option.map_some] at hget
    rw [List.getElem?_range' hlt, Option.some.injEq] at hget
    omega
  rw [Query.Matched, marks_sql]
  refine ⟨fun ⟨hlength, hown⟩ => ?_, fun h => ?_⟩
  · apply List.ext_getElem?
    intro j
    rw [List.getElem?_map]
    cases hb : q.bound[j]? with
    | none =>
      rw [List.getElem?_eq_none_iff] at hb
      rw [Option.map_none, List.getElem?_eq_none_iff]
      omega
    | some b =>
      have hb' := hown b (List.mem_of_getElem? hb)
      rw [hindex j b hb] at hb'
      exact hb'
  · refine ⟨by rw [h, List.length_map], fun b hb => ?_⟩
    obtain ⟨j, hj⟩ := List.getElem?_of_mem hb
    rw [hindex j b hj, h, List.getElem?_map, hj]
    rfl

theorem matched_iff_plain (dao : Dao) (data : List (Condition V)) (last : String) :
    Query.Matched ⟨sqlParts dao data last, bindParams 0 0 data⟩ ↔ Plain dao data last := by
  let bound := bindParams 0 0 data
  let conditions := bound.map fun b => some b.condition
  have hnone : none ∉ conditions := by simp [conditions]
  have howners : Query.owners ⟨sqlParts dao data last, bound⟩ =
      List.replicate (marks dao.fields + marks dao.tableName) none ++
        (Query.owners ⟨conditionParts 0 data, bound⟩ ++ List.replicate (marks last) none) := by
    have hheader : marks ("SELECT " ++ dao.fields ++ " FROM " ++ dao.tableName) =
        marks dao.fields + marks dao.tableName := by
      simp (disch := decide) only [marks_append, marks_lit, Nat.zero_add, Nat.add_zero]
    simp only [Query.owners, sqlParts, List.cons_append, List.flatMap_cons, List.flatMap_append,
      hheader, List.flatMap_nil, List.append_nil]
  rw [matched_iff _ (bindParams_param 0 0 data), Plain, ← owners_eq_iff 0 0 data bound, howners]
  refine ⟨fun h => ?_, fun ⟨hfields, htable, hlast, hconditions⟩ => ?_⟩
  · change _ = conditions at h
    rw [← h, List.mem_append, List.mem_append, List.mem_replicate, List.mem_replicate] at hnone
    simp only [not_or, not_and, ne_eq, not_true_eq_false, imp_false, not_not] at hnone
    obtain ⟨hheader, -, hlast⟩ := hnone
    rw [hheader, hlast, List.replicate_zero, List.nil_append, List.append_nil] at h
    exact ⟨by omega, by omega, hlast, h⟩
  · rw [hfields, htable, hlast, List.replicate_zero, List.nil_append, List.append_nil]
    exact hconditions

theorem eq_of_checked {dao : Dao} {q q' : Query V} (h : (do checked dao; return q') = .ok q) :
    q' = q := by
  cases hchecked : checked dao with
  | error message => simp [hchecked, bind, Except.bind] at h
  | ok u =>
    rw [hchecked] at h
    exact Except.ok.inj h

/-- The SQL of `fetchOne`, and that of `fetchMultiple`, has a `?` for each parameter and
    each in its condition, if and only if no scalar has an operator (and no name, no
    order and no limit brings a `?` of its own). -/
theorem placeholders_matched_iff (dao : Dao) (data : List (Condition V))
    (limit : Option (String × String)) (order : Option String) :
    (∀ q, fetchOne dao data order = .ok q →
      (q.Matched ↔ Plain dao data (orderText order ++ " LIMIT 1"))) ∧
    ∀ q, fetchMultiple dao data limit order = .ok q →
      (q.Matched ↔ Plain dao data (orderText order ++ limitText limit)) := by
  refine ⟨fun q hq => ?_, fun q hq => ?_⟩
  · rw [← eq_of_checked hq]
    exact matched_iff_plain dao data _
  · rw [← eq_of_checked hq]
    exact matched_iff_plain dao data _

/-- A scalar with an operator is spelled twice and bound once. -/
theorem operator_spelled_twice :
    let dao : Dao := { tableName := "user" }
    let data : List (Condition String) :=
      [⟨"age", .scalar (some "18"), 1, some ">"⟩, ⟨"city", .scalar (some "11"), 1, none⟩]
    (fetchOne dao data).map (fun q => (q.sql, marks q.sql, q.bound.length)) =
      .ok ("SELECT * FROM user WHERE age>?age=? AND city=? LIMIT 1", 3, 2) ∧
    (fetchMultiple dao data).map (fun q => (q.sql, marks q.sql, q.bound.length)) =
      .ok ("SELECT * FROM user WHERE age>?age=? AND city=?", 3, 2) := by
  decide

end

end RubbishStore.Pdo.CommonUse
