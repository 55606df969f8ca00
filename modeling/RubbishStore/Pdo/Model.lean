import RubbishStore.Lib.Assoc
import RubbishStore.Lib.Prog
import RubbishStore.Pdo.Statement

/- The data model under `php/pdo`: model classes and their mappings
   (`APF_DB_DataObject`), model objects, the static fields of
   `APF_DB_MysqlAccessor`, and what a PHP process asks of the outside world.
   Scalars are a type `V`; a PHP scalar is identified by what an array key, a
   bound parameter and a column compare, so `V` has decidable equality.
   An object is its class and its public properties, declared ones included:
   `isLoaded`, `splitSuffix` and `cache_expire` can be read and written like any
   other. The effects are memcache calls and calls on a PDO connection; each of
   them can raise. -/
namespace RubbishStore.Pdo
open RubbishStore.Lib

/-- The conversions PHP makes between its scalars and the booleans, strings and
    integers the code tests and uses. -/
class PhpScalar (V : Type) where
  ofBool : Bool → V
  ofText : String → V
  ofInt : Int → V
  truthy : V → Bool
  toText : V → String
  truthy_ofBool : ∀ b, truthy (ofBool b) = b
  toText_ofText : ∀ s, toText (ofText s) = s

/-- Scalars as texts, the way PDO fetches them. -/
instance : PhpScalar String where
  ofBool b := if b then "1" else ""
  ofText s := s
  ofInt n := toString n
  truthy s := s ≠ "" && s ≠ "0"
  toText s := s
  truthy_ofBool := by decide
  toText_ofText _ := rfl

/-- `Exception($message, $code)`. -/
structure PhpException where
  message : String
  code : String := "0"
  deriving DecidableEq, Repr

/-- What `get_mapping` returns: the table, the property of the primary key, and
    the column of each property. -/
structure Mapping where
  table : String
  key : Option String
  columns : List (String × String)
  deriving DecidableEq, Repr

/-- `mapping_to_db`; an unknown property reads as the empty text. -/
def Mapping.toDb (m : Mapping) (objColumn : String) : String := (m.columns.lookup objColumn).getD ""

/-- `get_primary_key_name`. -/
def Mapping.keyName (m : Mapping) : String := m.key.getD ""

/-- The properties a mapping lists. -/
def Mapping.properties (m : Mapping) : List String := m.columns.map Prod.fst

/-- A model class: what a subclass of `APF_DB_DataObject` overrides, the
    configuration its `cache_enable` reads, and memcache's key for its objects. -/
structure ModelClass (V : Type) where
  name : String
  splittable : Bool := false
  enableCache : Bool := true
  disableObjCache : Bool := false
  getMapping : String → Mapping
  getPdoMasterName : String
  getPdoSlaveName : String
  getObjKey : Val V → String

/-- A class to evaluate on: users with a key, a name and a state, on one master
    and one slave. -/
def userClass : ModelClass String where
  name := "User"
  getMapping suffix :=
    { table := "user" ++ suffix
      key := some "id"
      columns := [("id", "user_id"), ("name", "user_name"), ("state", "state")] }
  getPdoMasterName := "user_master"
  getPdoSlaveName := "user_slave"
  getObjKey id := "User:" ++ id.getD ""

namespace ModelClass
variable {V : Type}

def cacheEnable (cls : ModelClass V) : Bool := cls.enableCache && !cls.disableObjCache

/-- `get_pdo_name`, from the two flags of the accessor it is given. -/
def getPdoName (cls : ModelClass V) (readOnly forceMaster : Bool) : String :=
  if readOnly && !forceMaster then cls.getPdoSlaveName else cls.getPdoMasterName

end ModelClass

/-- A model object: its class, and its public properties in the order in which
    they were first written. -/
structure Obj (V : Type) where
  cls : String
  props : List (String × Val V)
  deriving DecidableEq, Repr

section
variable {V : Type}

/-- `$this->$name`, null where there is none. -/
def Obj.get (o : Obj V) (name : String) : Val V := (o.props.lookup name).join

/-- `$this->$name = $value`, for a property that is there or that `__set` lets through. -/
def Obj.set (o : Obj V) (name : String) (value : Val V) : Obj V :=
  { o with props := assocSet o.props name value }

variable [PhpScalar V]

def Obj.isLoaded (o : Obj V) : Bool := (o.get "isLoaded").any PhpScalar.truthy
def Obj.splitSuffix (o : Obj V) : String := ((o.get "splitSuffix").map PhpScalar.toText).getD ""

/-- The properties the base class declares. -/
def declaredProperties : List String := ["splitSuffix", "cache_expire", "isLoaded"]

/-- Whether a suffix counts as missing: `!$splitSuffix`. -/
def missingSuffix (suffix : String) : Bool := suffix = "" || suffix = "0"

/-- `__construct`: a class whose tables are split needs a suffix; `init` then
    sets every mapped property to null. -/
def ModelClass.construct (cls : ModelClass V) (suffix : String) : Except PhpException (Obj V) :=
  if cls.splittable && missingSuffix suffix then
    .error { message := cls.name ++ " is splittable. Split suffix is needed." }
  else
    let declared : Obj V :=
      { cls := cls.name
        props := [("splitSuffix", some (PhpScalar.ofText suffix)),
          ("cache_expire", some (PhpScalar.ofInt 86400)), ("isLoaded", some (PhpScalar.ofBool false))] }
    .ok ((cls.getMapping suffix).properties.foldl (fun o p => o.set p none) declared)

end

/-- The static fields of `APF_DB_MysqlAccessor`. The pool maps a connection's
    name to the connection; here a connection is its name. -/
structure Statics where
  delCache : Bool := false
  autoCommit : Bool := true
  splitSuffix : String := ""
  connections : List String := []
  deriving DecidableEq, Repr

/-- A row as `fetchAll(PDO::FETCH_ASSOC)` returns it. -/
abbrev FetchRow (V : Type) : Type := List (String × Val V)

/-- An executed statement: the rows it fetches, and `rowCount()`. -/
structure Fetched (V : Type) where
  rows : List (FetchRow V) := []
  rowCount : Nat := 0
  deriving DecidableEq, Repr

/-- `fetchColumn()`: the first column of the first row, if there is one. -/
def Fetched.fetchColumn {V : Type} (f : Fetched V) : Option (Val V) :=
  (f.rows.head?.bind List.head?).map Prod.snd

/-- What is handed to PDO: the text to prepare and the values to execute it
    with. `stmt` is the statement the text spells. -/
structure Sent (V : Type) where
  sql : String
  values : List (Val V)
  stmt : Stmt V
  deriving DecidableEq, Repr

/-- What a process asks of PDO and memcache. -/
inductive Eff (V : Type) where
  | beginTransaction (con : String)
  | commit (con : String)
  | rollBack (con : String)
  | execute (con : String) (sent : Sent V)
  | executeNative (con : String) (sql : String) (values : List (Val V))
  | lastInsertId (con : String)
  | cacheGet (key : String)
  | cacheGetMulti (keys : List String)
  | cacheSet (key : String) (obj : Obj V) (expire : Val V)
  | cacheDelete (key : String)
  deriving DecidableEq, Repr

/-- The answers. A multi-get returns the map of the keys it found. -/
@[reducible] def Eff.Ans {V : Type} : Eff V → Type
  | .beginTransaction _ | .commit _ | .rollBack _ => Unit
  | .execute _ _ | .executeNative _ _ _ => Fetched V
  | .lastInsertId _ => Val V
  | .cacheGet _ => Option (Obj V)
  | .cacheGetMulti _ => List (String × Obj V)
  | .cacheSet _ _ _ | .cacheDelete _ => Unit

/-- A method with local state `σ`. -/
abbrev Php (V σ α : Type) : Type := Method (Eff V) Eff.Ans PhpException σ α

/-- One call on the outside world. -/
abbrev ask {V σ : Type} (e : Eff V) : Php V σ e.Ans := Method.perform e

/-- An outside world with state `W`. -/
abbrev Outside (V W : Type) : Type := Method.Env (Eff V) Eff.Ans PhpException W

/-- An outside world that raises nothing, caches nothing and answers every
    statement alike. -/
def steadyOutside {V : Type} (fetched : Fetched V) : Outside V Unit
  | .beginTransaction _, w | .commit _, w | .rollBack _, w => (.ok (), w)
  | .execute _ _, w | .executeNative _ _ _, w => (.ok fetched, w)
  | .lastInsertId _, w => (.ok none, w)
  | .cacheGet _, w => (.ok none, w)
  | .cacheGetMulti _, w => (.ok [], w)
  | .cacheSet _ _ _, w | .cacheDelete _, w => (.ok (), w)

/-- And has no rows. -/
abbrev emptyOutside {V : Type} : Outside V Unit := steadyOutside {}

/-! Reading and writing objects. -/

section
variable {V : Type}

@[simp] theorem Obj.get_set_self (o : Obj V) (p : String) (v : Val V) : (o.set p v).get p = v := by
  simp [Obj.get, Obj.set]

theorem Obj.get_set (o : Obj V) (p q : String) (v : Val V) :
    (o.set p v).get q = if p = q then v else o.get q := by
  by_cases h : p = q <;> simp [Obj.get, Obj.set, lookup_set, h]

theorem Obj.get_set_ne {p q : String} (o : Obj V) (v : Val V) (h : p ≠ q) :
    (o.set p v).get q = o.get q := by
  simp [Obj.get_set, h]

/-- Writing a list of properties leaves the others as they were. -/
theorem Obj.get_foldl_set {β : Type} (name : β → String) (value : β → Val V) (bs : List β) (o : Obj V)
    (q : String) (h : q ∉ bs.map name) :
    (bs.foldl (fun o b => o.set (name b) (value b)) o).get q = o.get q := by
  induction bs generalizing o with
  | nil => rfl
  | cons b bs ih =>
    simp only [List.map_cons, List.mem_cons, not_or] at h
    rw [List.foldl_cons, ih _ h.2, Obj.get_set_ne _ _ (Ne.symm h.1)]

/-- Distinct properties read back as they were written. -/
theorem Obj.get_foldl_set_mem {β : Type} (name : β → String) (value : β → Val V) (bs : List β)
    (o : Obj V) (hnd : (bs.map name).Nodup) {b : β} (hb : b ∈ bs) :
    (bs.foldl (fun o b => o.set (name b) (value b)) o).get (name b) = value b := by
  induction bs generalizing o with
  | nil => simp at hb
  | cons b' bs ih =>
    simp only [List.map_cons, List.nodup_cons] at hnd
    rw [List.foldl_cons]
    rcases List.mem_cons.mp hb with rfl | hb
    · rw [Obj.get_foldl_set name value bs _ _ hnd.1, Obj.get_set_self]
    · exact ih _ hnd.2 hb

/-- A new object carries the suffix it was constructed with. -/
theorem ModelClass.get_splitSuffix_construct [PhpScalar V] {cls : ModelClass V} {suffix : String}
    {obj : Obj V} (hproperties : "splitSuffix" ∉ (cls.getMapping suffix).properties)
    (hc : cls.construct suffix = .ok obj) :
    obj.get "splitSuffix" = some (PhpScalar.ofText suffix) := by
  unfold construct at hc
  split at hc
  · cases hc
  · cases hc
    rw [Obj.get_foldl_set (fun p => p) (fun _ => none) _ _ _ (by simpa using hproperties)]
    rfl

end

end RubbishStore.Pdo
