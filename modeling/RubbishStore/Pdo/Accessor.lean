import Mathlib.Data.List.DropRight
import RubbishStore.Pdo.Model

/- `APF_DB_MysqlAccessor`: a query builder bound to one model class and table.
   Builder calls fill its fields; a terminal call writes the SQL text, appends
   the values it binds to `pdo_values`, picks a connection by the flags and
   executes; the find calls turn the fetched rows into objects of the class and
   go through the row cache. `prepare` is the part of a terminal call before
   `execute_internal`; `Accessor.stmt` is the statement its text spells
   (`prepare_eq`).
   The accessor's fields `force_master`, `distinct`, `limit`, `offset` and
   `user_define_where` share their names with methods and are called
   `masterForced`, `isDistinct`, `limitTo`, `offsetFrom` and `userWhere` here. -/
namespace RubbishStore.Pdo
open RubbishStore.Lib

/-- The parallel arrays `filter_names`, `filter_ops` and `filter_values`. -/
structure Filters (V : Type) where
  names : List String
  ops : List String
  values : List (Operand V)
  ops_length : ops.length = names.length
  values_length : values.length = names.length

namespace Filters
variable {V : Type}

def empty : Filters V := ⟨[], [], [], rfl, rfl⟩

def push (f : Filters V) (name op : String) (value : Operand V) : Filters V where
  names := f.names ++ [name]
  ops := f.ops ++ [op]
  values := f.values ++ [value]
  ops_length := by simp [f.ops_length]
  values_length := by simp [f.values_length]

/-- The filters in the order of their index: name, operator, value. -/
def toList (f : Filters V) : List (String × String × Operand V) := f.names.zip (f.ops.zip f.values)

@[simp] theorem toList_empty : (empty : Filters V).toList = [] := rfl

@[simp] theorem toList_push (f : Filters V) (name op : String) (value : Operand V) :
    (f.push name op value).toList = f.toList ++ [(name, op, value)] := by
  have h := f.ops_length
  have h' := f.values_length
  simp only [toList, push]
  rw [List.zip_append (by omega), List.zip_append (by simp; omega)]
  rfl

theorem isEmpty_names (f : Filters V) : f.names.isEmpty = f.toList.isEmpty := by
  have h := f.ops_length
  have h' := f.values_length
  have hlen : f.toList.length = f.names.length := by simp [toList]; omega
  rw [Bool.eq_iff_iff, List.isEmpty_iff_length_eq_zero, List.isEmpty_iff_length_eq_zero, hlen]

end Filters

structure Accessor (V : Type) where
  connection : Option String := none
  readOnly : Bool := false
  masterForced : Bool := false
  model : ModelClass V
  cacheEnable : Bool
  sql : String := ""
  mapping : Mapping
  filters : Filters V := .empty
  isDistinct : Bool := false
  loadFields : List String := []
  sorts : List (String × String) := []
  setFields : List (String × Val V) := []
  pdoValues : List (Val V) := []
  limitTo : Option Nat := none
  offsetFrom : Option Nat := none
  userWhere : String := ""
  userValues : List (Val V) := []
  userFlag : Bool := false
  /-- ghost: every object `init_objs` built for this accessor -/
  built : List (Obj V) := []

/-- `$this`, and the static fields of the class. -/
structure Self (V : Type) where
  this : Accessor V
  statics : Statics

/-- A method of the accessor. -/
abbrev AccM (V α : Type) : Type := Php V (Self V) α

namespace Accessor
variable {V : Type}

/-! Builder calls. -/

def filterByOp (a : Accessor V) (name op : String) (value : Operand V) : Accessor V :=
  { a with filters := a.filters.push name op value }

/-- `filter`: a list filters with `in` and must not be empty, a scalar with `=`. -/
def filter (a : Accessor V) (name : String) (value : Operand V) : Except PhpException (Accessor V) :=
  match value with
  | .list [] => .error { message := "values can not be empty array", code := "005" }
  | .list (v :: vs) => .ok (a.filterByOp name "in" (.list (v :: vs)))
  | .scalar v => .ok (a.filterByOp name "=" (.scalar v))

def forceMaster (a : Accessor V) : Accessor V := { a with masterForced := true }
def distinct (a : Accessor V) : Accessor V := { a with isDistinct := true }
def loadField (a : Accessor V) (fieldNames : List String) : Accessor V :=
  { a with loadFields := a.loadFields ++ fieldNames }
def userDefineWhere (a : Accessor V) (sqlWhere : String) (values : List (Val V)) : Accessor V :=
  { a with userWhere := sqlWhere, userValues := values, userFlag := true }
def sort (a : Accessor V) (name : String) (type : String := "desc") : Accessor V :=
  { a with sorts := assocSet a.sorts name type }
def offset (a : Accessor V) (n : Nat) : Accessor V := { a with offsetFrom := some n }
def limit (a : Accessor V) (n : Nat) : Accessor V := { a with limitTo := some n }
def setField (a : Accessor V) (name : String) (value : Val V) : Accessor V :=
  { a with setFields := assocSet a.setFields name value }

/-! The SQL text and the values it binds. -/

/-- One round of the loop in `append_where`: the text of the filter, and
    `pdo_values` with its values. -/
def whereStep (m : Mapping) (acc : List String × List (Val V)) (f : String × String × Operand V) :
    List String × List (Val V) :=
  match f.2.2 with
  | .list vs =>
    (acc.1 ++ [quoted (m.toDb f.1) ++ " " ++ f.2.1 ++ " ( " ++
      implode " , " (List.replicate vs.length "?") ++ " ) "], acc.2 ++ vs)
  | .scalar v => (acc.1 ++ [quoted (m.toDb f.1) ++ " " ++ f.2.1 ++ " ? "], acc.2 ++ [v])

def appendWhere (a : Accessor V) : Accessor V :=
  if (a.filters.names.isEmpty || a.filters.ops.isEmpty || a.filters.values.isEmpty) && !a.userFlag then a
  else
    let w := a.filters.toList.foldl (whereStep a.mapping) ([], a.pdoValues)
    let w := if a.userFlag then (w.1 ++ ["(" ++ a.userWhere ++ ")"], w.2 ++ a.userValues) else w
    { a with sql := a.sql ++ "where " ++ (implode " and " w.1 ++ " "), pdoValues := w.2 }

def appendOrder (a : Accessor V) : Accessor V :=
  if a.sorts.isEmpty then a
  else
    let tmp := a.sorts.map fun s => quoted (a.mapping.toDb s.1) ++ " " ++ s.2
    { a with sql := a.sql ++ "order by " ++ (implode " , " tmp ++ " ") }

def appendLimit (a : Accessor V) : Accessor V :=
  match a.limitTo with
  | none => a
  | some n =>
    let offset := (a.offsetFrom.map fun o => toString o ++ ",").getD ""
    { a with sql := a.sql ++ ("limit " ++ offset ++ toString n) }

def appendUpdate (a : Accessor V) : Accessor V :=
  let tmp := a.setFields.map fun s => quoted (a.mapping.toDb s.1) ++ " = ?"
  { a with
    sql := a.sql ++ "set " ++ (implode " , " tmp ++ " ")
    pdoValues := a.pdoValues ++ a.setFields.map Prod.snd }

def appendInsert (a : Accessor V) : Accessor V :=
  let columns := a.setFields.map fun s => quoted (a.mapping.toDb s.1)
  let values := a.setFields.map fun _ => "?"
  { a with
    sql := a.sql ++ ("( " ++ implode " , " columns ++ " ) values ( " ++ implode " , " values ++ " ) ")
    pdoValues := a.pdoValues ++ a.setFields.map Prod.snd }

/-- PHP's `rtrim` with one character to strip. -/
def rtrim (s : String) (c : Char) : String := String.ofList (s.toList.rdropWhile (· == c))

/-- The field list of `find_all`. -/
def fields (a : Accessor V) : String :=
  let names :=
    if a.loadFields.isEmpty then "*"
    else rtrim (a.loadFields.foldl (fun s f => s ++ " " ++ quoted (a.mapping.toDb f) ++ " ,") "") ','
  if a.isDistinct then "distinct " ++ names else names

end Accessor

/-- The calls that execute a statement. `find` is `find_all`, `replace` is
    `insert` with the type `replace`. -/
inductive Terminal where
  | findAll
  | count
  | sum (field : String)
  | max (field : String)
  | min (field : String)
  | update
  | insert (type : String)
  | delete
  deriving DecidableEq, Repr

namespace Accessor
variable {V : Type}

/-- `$this->sql = "..."` at the head of a terminal call. -/
def startSql (a : Accessor V) (sql : String) : Accessor V := { a with sql := sql }

/-- A terminal call up to `execute_internal`. -/
def prepare (a : Accessor V) : Terminal → Accessor V
  | .findAll =>
    let a := { a with readOnly := true }
    (a.startSql ("select " ++ a.fields ++ " from " ++ quoted a.mapping.table ++ " "))
      |>.appendWhere |>.appendOrder |>.appendLimit
  | .count => (a.startSql ("select count(1) from " ++ quoted a.mapping.table ++ " ")).appendWhere
  | .sum field => aggregate a "sum" field
  | .max field => aggregate a "max" field
  | .min field => aggregate a "min" field
  | .update => (a.startSql ("update " ++ quoted a.mapping.table ++ " ")).appendUpdate.appendWhere
  | .insert type => (a.startSql (type ++ " into " ++ quoted a.mapping.table ++ " ")).appendInsert
  | .delete =>
    (a.startSql ("delete from " ++ quoted a.mapping.table ++ " ")).appendWhere.appendLimit
where
  /-- `sum`, `max` and `min` differ in the function's name only. -/
  aggregate (a : Accessor V) (fn field : String) : Accessor V :=
    (a.startSql ("select " ++ fn ++ "(" ++ quoted (a.mapping.toDb field) ++ ") from " ++
      quoted a.mapping.table ++ " ")).appendWhere

end Accessor

namespace Terminal

/-- The terminal call writes a `set` list or a column list. -/
def assigns : Terminal → Bool
  | .update | .insert _ => true
  | .findAll | .count | .sum _ | .max _ | .min _ | .delete => false

/-- The terminal call has a where clause. -/
def filters : Terminal → Bool
  | .insert _ => false
  | .findAll | .count | .sum _ | .max _ | .min _ | .update | .delete => true

/-- The terminal call has a limit. -/
def limits : Terminal → Bool
  | .findAll | .delete => true
  | .count | .sum _ | .max _ | .min _ | .update | .insert _ => false

end Terminal

namespace Accessor
variable {V : Type}

def verb (a : Accessor V) : Terminal → Verb
  | .findAll => .select (a.loadFields.map a.mapping.toDb) a.isDistinct
  | .count => .count
  | .sum field => .aggregate "sum" (a.mapping.toDb field)
  | .max field => .aggregate "max" (a.mapping.toDb field)
  | .min field => .aggregate "min" (a.mapping.toDb field)
  | .update => .update
  | .insert type => .insert type
  | .delete => .delete

/-- The condition a filter spells. -/
def cond (m : Mapping) (f : String × String × Operand V) : Cond V := ⟨m.toDb f.1, f.2.1, f.2.2⟩

/-- The statement a terminal call spells. -/
def stmt (a : Accessor V) (t : Terminal) : Stmt V where
  verb := a.verb t
  table := a.mapping.table
  sets := if t.assigns then a.setFields.map fun s => (a.mapping.toDb s.1, s.2) else []
  conds := if t.filters then a.filters.toList.map (cond a.mapping) else []
  userWhere := if t.filters && a.userFlag then some (a.userWhere, a.userValues) else none
  orderBy := if t = .findAll then a.sorts.map fun s => (a.mapping.toDb s.1, s.2) else []
  limit := if t.limits then a.limitTo.map fun n => (a.offsetFrom, n) else none

/-- A fresh accessor of a class, its mapping the one of the suffix. -/
def fresh (cls : ModelClass V) (splitSuffix : String) : Accessor V where
  model := cls
  cacheEnable := cls.cacheEnable
  mapping := cls.getMapping splitSuffix

/-- `get_pdo_name($this)`. -/
def pdoName (a : Accessor V) : String := a.model.getPdoName a.readOnly a.masterForced

/-- The object of a fetched row. -/
def fill [PhpScalar V] (a : Accessor V) (obj : Obj V) (r : FetchRow V) : Obj V :=
  (a.mapping.columns.foldl (fun o c => o.set c.1 (r.lookup c.2).join) obj).set "isLoaded"
    (some (PhpScalar.ofBool true))

end Accessor

/-- A key of a PHP array: a position, or a text. -/
inductive ArrayKey where
  | idx (k : Nat)
  | text (k : String)
  deriving DecidableEq, Repr

/-- What `find_by_pks` returns: a PHP array of objects and nulls. -/
abbrev ObjArray (V : Type) : Type := List (ArrayKey × Option (Obj V))

/-- `$arr[$obj->$key] = $obj` for each object in turn. -/
def byKey {V : Type} [DecidableEq V] (key : String) (objs : List (Obj V)) : List (Val V × Obj V) :=
  objs.foldl (fun arr obj => assocSet arr (obj.get key) obj) []

/-! The calls themselves. -/

namespace MysqlAccessor

section
variable {V : Type}

def setThis (f : Accessor V → Accessor V) : AccM V Unit :=
  Method.modify fun s => { s with this := f s.this }

/-- `get_connection`: the pooled connection, or a new one, in a transaction
    when `auto_commit` is off. -/
def getConnection (conName : String) : AccM V Unit := do
  let s ← Method.get
  if conName ∈ s.statics.connections then pure ()
  else
    if s.statics.autoCommit = false then ask (.beginTransaction conName)
    Method.modify fun s =>
      { s with statics := { s.statics with connections := s.statics.connections ++ [conName] } }

/-- The connection `execute_internal` and `native_sql` run on. -/
def connect : AccM V String := do
  let s ← Method.get
  getConnection s.this.pdoName
  setThis fun a => { a with connection := some s.this.pdoName }
  pure s.this.pdoName

def executeInternal (t : Terminal) : AccM V (Fetched V) := do
  let con ← connect
  let s ← Method.get
  ask (.execute con ⟨s.this.sql, s.this.pdoValues, s.this.stmt t⟩)

def executeRead (t : Terminal) : AccM V (Fetched V) := do
  setThis (·.prepare t)
  executeInternal t

def executeWrite (t : Terminal) : AccM V Nat := do
  setThis (·.prepare t)
  let st ← executeInternal t
  pure st.rowCount

def count : AccM V (Option (Val V)) := do return (← executeRead .count).fetchColumn
def sum (field : String) : AccM V (Option (Val V)) := do return (← executeRead (.sum field)).fetchColumn
def max (field : String) : AccM V (Option (Val V)) := do return (← executeRead (.max field)).fetchColumn
def min (field : String) : AccM V (Option (Val V)) := do return (← executeRead (.min field)).fetchColumn
def update : AccM V Nat := executeWrite .update
def insert (type : String := "insert") : AccM V Nat := executeWrite (.insert type)
def replace : AccM V Nat := insert "replace"
def delete : AccM V Nat := executeWrite .delete

/-- `native_sql`: the rows of a read, the row count of a write. -/
def nativeSql (sql : String) (values : List (Val V)) (readOnly : Bool := true) :
    AccM V (List (FetchRow V) ⊕ Nat) := do
  setThis fun a => { a with readOnly := readOnly }
  let con ← connect
  let st ← ask (.executeNative con sql values)
  pure (if readOnly then .inl st.rows else .inr st.rowCount)

variable [PhpScalar V]

/-- `init_objs`; the suffix is the static one. -/
def initObjs : List (FetchRow V) → AccM V (List (Obj V))
  | [] => pure []
  | r :: rs => do
    let s ← Method.get
    let obj ← Method.lift (s.this.model.construct s.statics.splitSuffix)
    setThis fun a => { a with built := a.built ++ [a.fill obj r] }
    let objs ← initObjs rs
    pure (s.this.fill obj r :: objs)

def findAll : AccM V (List (Obj V)) := do
  let st ← executeRead .findAll
  initObjs st.rows

def find : AccM V (List (Obj V)) := findAll

def findOnly : AccM V (Option (Obj V)) := do
  setThis (·.limit 1)
  let rs ← find
  pure rs.getLast?

/-- `find_by_pk_internal`: a filter on the key, and `find`. -/
def findByPkInternal (ids : Operand V) : AccM V (List (Obj V)) := do
  let s ← Method.get
  let a ← Method.lift (s.this.filter s.this.mapping.keyName ids)
  setThis fun _ => a
  find

/-- `set_cached_objs`. -/
def setCachedObjs : List (Obj V) → AccM V Unit
  | [] => pure ()
  | obj :: objs => do
    let s ← Method.get
    ask (.cacheSet (s.this.model.getObjKey (obj.get s.this.mapping.keyName)) obj
      (obj.get "cache_expire"))
    setCachedObjs objs

/-- `find_by_pk` after a cache miss. -/
def loadByPk (id : V) (throwException : Bool) : AccM V (Option (Obj V)) := do
  setThis (·.limit 1)
  let rs ← findByPkInternal (.scalar (some id))
  match rs.getLast? with
  | none =>
    if throwException then Method.throw { message := "no obj loaded", code := "002" }
    else pure none
  | some obj => do
    let s ← Method.get
    if s.this.cacheEnable then setCachedObjs [obj]
    pure (some obj)

def findByPk (id : V) (throwException : Bool := true) : AccM V (Option (Obj V)) := do
  let s ← Method.get
  if s.this.cacheEnable && !s.statics.delCache then
    match ← ask (.cacheGet (s.this.model.getObjKey (some id))) with
    | some obj => pure (some obj)
    | none => loadByPk id throwException
  else loadByPk id throwException

variable [DecidableEq V]

/-- `find_by_pks` once the cache has given `memObjs`: the other ids are read
    from the table and cached, and each id gets its object or null. -/
def loadByPks (ids : List V) (memObjs : List (Obj V)) : AccM V (ObjArray V) := do
  let s ← Method.get
  let key := s.this.mapping.keyName
  let memIds := memObjs.map fun o => o.get key
  let dbObjs ← findByPkInternal (.list ((ids.filter fun id => some id ∉ memIds).map some))
  if s.this.cacheEnable then setCachedObjs dbObjs
  let memArr := byKey key memObjs
  let dbArr := byKey key dbObjs
  pure (ids.zipIdx.map fun p => (.idx p.2, (memArr.lookup (some p.1)).or (dbArr.lookup (some p.1))))

def findByPks (ids : List V) : AccM V (ObjArray V) := do
  let s ← Method.get
  if s.this.cacheEnable && !s.statics.delCache then
    let memObjs ← ask (.cacheGetMulti (ids.map fun id => s.this.model.getObjKey (some id)))
    -- as many hits as ids: the multi-get's own map is the answer
    if !memObjs.isEmpty && memObjs.length = ids.length then
      pure (memObjs.map fun p => (.text p.1, some p.2))
    else loadByPks ids (memObjs.map Prod.snd)
  else loadByPks ids []

end

/-! Static methods. -/

section
variable {V : Type}

/-- `use_model`: it leaves its suffix in the static field. -/
def useModel (cls : ModelClass V) (splitSuffix : String := "") : Php V Statics (Accessor V) := do
  Method.modify fun s => { s with splitSuffix := splitSuffix }
  let s ← Method.get
  let dataAccessor := Accessor.fresh cls s.splitSuffix
  if dataAccessor.mapping.key = none then
    Method.throw { message := "no primary key", code := "001" }
  else pure dataAccessor

def beginTransaction : Php V Statics Unit := Method.modify fun s => { s with autoCommit := false }

/-- One call on each connection of the pool; the first that raises ends the loop. -/
def onEach (call : String → Php V Statics Unit) : List String → Php V Statics Unit
  | [] => pure ()
  | con :: cons => do
    call con
    onEach call cons

def commit : Php V Statics Unit := do
  let s ← Method.get
  onEach (fun con => ask (.commit con)) s.connections

def rollBack : Php V Statics Unit := do
  let s ← Method.get
  onEach (fun con => ask (.rollBack con)) s.connections

end

end MysqlAccessor

end RubbishStore.Pdo
