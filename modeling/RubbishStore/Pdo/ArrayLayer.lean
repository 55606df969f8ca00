import RubbishStore.Lib.Asks
import RubbishStore.Pdo.Routing

/- `Model_Db_ArrayLayer`: static methods that build an accessor, or an object, from
   arrays and make one call on it. `self::$dbSplit` is one field for all classes of
   the layer, and they name their connections after it; no call resets it.
   `Model_Db_Abstract`, between the layer and `APF_DB_DataObject`, is taken to add
   nothing to the methods used here. -/
namespace RubbishStore.Pdo
open RubbishStore.Lib
open Method

section
variable {V : Type}

/-- A class of the layer: a model class whose connections are named after `self::$dbSplit`. -/
structure LayerClass (V : Type) where
  model : ModelClass V
  getPdoMasterName : String → String := fun _ => "master"
  getPdoSlaveName : String → String := fun _ => "slave"

/-- The class while `self::$dbSplit` is `dbSplit`. -/
def LayerClass.under (cls : LayerClass V) (dbSplit : String) : ModelClass V :=
  { cls.model with
    getPdoMasterName := cls.getPdoMasterName dbSplit
    getPdoSlaveName := cls.getPdoSlaveName dbSplit }

/-- The static fields: those of the accessor, and `self::$dbSplit`, empty until it is set. -/
structure LayerStatics where
  dbSplit : String := ""
  statics : Statics := {}
  deriving DecidableEq, Repr

/-- A static method of the layer. -/
abbrev LayerM (V α : Type) : Type := Php V LayerStatics α

namespace ArrayLayer

/-- `if (!empty($dbSplit)) self::setDbSplit($dbSplit)` -/
def setDbSplit (dbSplit : String) : LayerM V Unit :=
  Method.modify fun s => if missingSuffix dbSplit then s else { s with dbSplit := dbSplit }

/-- `$prefix` where it is not empty, and the default where it is. -/
def suffixOf (pre : String) : String := if missingSuffix pre then "" else pre

/-- `static::data_access($splitSuffix)` -/
def dataAccess (cls : LayerClass V) (splitSuffix : String) : LayerM V (Accessor V) := do
  let s ← Method.get
  let r ← Method.on LayerStatics.statics (fun s st => { s with statics := st })
    (MysqlAccessor.useModel (cls.under s.dbSplit) splitSuffix)
  pure r.1

/-- A call on the accessor that has been built. -/
def onAccessor {α : Type} (a : Accessor V) (m : AccM V α) : LayerM V α := do
  let r ← Method.on (fun s : LayerStatics => (⟨a, s.statics⟩ : Self V))
    (fun s t => { s with statics := t.statics }) m
  pure r.1

/-- The filters, the order and the limit of `baseFetchLayer`. -/
def fetching (data : List (String × String × Operand V)) (order : List (String × String)) (limit limitStart : Nat)
    (a : Accessor V) : Accessor V :=
  let a := data.foldl (fun a row => a.filterByOp row.1 row.2.1 row.2.2) a
  let a := order.foldl (fun a row => a.sort row.1 row.2) a
  let a := if limitStart = 0 then a else a.offset limitStart
  if limit = 0 then a else a.limit limit

def baseFetchLayer (cls : LayerClass V) (data : List (String × String × Operand V)) (order : List (String × String))
    (pre : String) (limit limitStart : Nat) (dbSplit : String) : LayerM V (Accessor V) := do
  setDbSplit dbSplit
  let mysqlAccessor ← dataAccess cls (suffixOf pre)
  pure (fetching data order limit limitStart mysqlAccessor)

/-- The filters of `updateLayer`. -/
def filterEach : List (String × Operand V) → Accessor V → Except PhpException (Accessor V)
  | [], a => .ok a
  | (key, row) :: filterData, a => do filterEach filterData (← a.filter key row)

def updateLayer (cls : LayerClass V) (filterData : List (String × Operand V)) (updateData : List (String × Val V))
    (primaryId : Operand V) (pre dbSplit : String) : LayerM V Nat := do
  setDbSplit dbSplit
  let primaryKey := (cls.model.getMapping (suffixOf pre)).keyName
  -- the accessor is given the prefix as it is
  let mysqlAccessor ← dataAccess cls pre
  let mysqlAccessor ← Method.lift (filterEach filterData mysqlAccessor)
  let mysqlAccessor ← Method.lift (mysqlAccessor.filter primaryKey primaryId)
  onAccessor (updateData.foldl (fun a row => a.setField row.1 row.2) mysqlAccessor) MysqlAccessor.update

def nativeSqlLayer (cls : LayerClass V) (sql : String) (value : List (Val V)) (readOnly : Bool) (pre dbSplit : String) :
    LayerM V (List (FetchRow V) ⊕ Nat) := do
  setDbSplit dbSplit
  let mysqlAccessor ← dataAccess cls pre
  onAccessor mysqlAccessor (MysqlAccessor.nativeSql sql value readOnly)

variable [PhpScalar V]

def fetchOneLayer (cls : LayerClass V) (data : List (String × String × Operand V)) (order : List (String × String))
    (pre dbSplit : String) : LayerM V (Option (Obj V)) := do
  let mysqlAccessor ← baseFetchLayer cls data order pre 0 0 dbSplit
  onAccessor mysqlAccessor MysqlAccessor.findOnly

def fetchLayer (cls : LayerClass V) (data : List (String × String × Operand V)) (order : List (String × String))
    (pre : String) (limit limitStart : Nat) (dbSplit : String) : LayerM V (List (Obj V)) := do
  let mysqlAccessor ← baseFetchLayer cls data order pre limit limitStart dbSplit
  onAccessor mysqlAccessor MysqlAccessor.find

/-- `new static($prefix)`, with the values of `$data`. -/
def filled (cls : ModelClass V) (data : List (String × Val V)) (pre : String) : Except PhpException (Obj V) := do
  let model ← cls.construct (suffixOf pre)
  let (r, model) := cls.assignEach data model
  r
  pure model

/-- The key is read back, and is the result where it counts as true. -/
def newKey (cls : ModelClass V) (pre : String) (model : Obj V) : Except PhpException (Val V) := do
  let key ← cls.read model (cls.getMapping (suffixOf pre)).keyName
  if key.any PhpScalar.truthy then pure key
  else .error { message := "insert fail in file " ++ cls.name }

def insertLayer (cls : LayerClass V) (data : List (String × Val V)) (pre dbSplit : String) : LayerM V (Val V) := do
  setDbSplit dbSplit
  let s ← Method.get
  let model ← Method.lift (filled (cls.under s.dbSplit) data pre)
  let r ← Method.on (fun s : LayerStatics => (⟨model, s.statics⟩ : ObjSelf V))
    (fun s t => { s with statics := t.statics }) (DataObject.save (cls.under s.dbSplit))
  Method.lift (newKey (cls.under s.dbSplit) pre r.2.this)

/-! Calls. -/

inductive LayerOp (V : Type) where
  | fetchOneLayer (data : List (String × String × Operand V)) (order : List (String × String))
  | fetchLayer (data : List (String × String × Operand V)) (order : List (String × String)) (limit limitStart : Nat)
  | insertLayer (data : List (String × Val V))
  | updateLayer (filterData : List (String × Operand V)) (updateData : List (String × Val V)) (primaryId : Operand V)
  | nativeSqlLayer (sql : String) (value : List (Val V)) (readOnly : Bool)

/-- A call on a class of the layer. -/
structure LayerCall (V : Type) where
  cls : LayerClass V
  op : LayerOp V
  pre : String := ""
  dbSplit : String := ""

/-- The call, its result aside. -/
def LayerCall.method (c : LayerCall V) : LayerM V Unit :=
  match c.op with
  | .fetchOneLayer data order => do let _ ← fetchOneLayer c.cls data order c.pre c.dbSplit
  | .fetchLayer data order limit limitStart => do
    let _ ← fetchLayer c.cls data order c.pre limit limitStart c.dbSplit
  | .insertLayer data => do let _ ← insertLayer c.cls data c.pre c.dbSplit
  | .updateLayer filterData updateData primaryId => do
    let _ ← updateLayer c.cls filterData updateData primaryId c.pre c.dbSplit
  | .nativeSqlLayer sql value readOnly => do let _ ← nativeSqlLayer c.cls sql value readOnly c.pre c.dbSplit

/-- What the accessor's `read_only` is when the statement is sent. -/
def LayerOp.readOnly : LayerOp V → Bool
  | .fetchOneLayer _ _ | .fetchLayer _ _ _ _ => true
  | .insertLayer _ | .updateLayer _ _ _ => false
  | .nativeSqlLayer _ _ readOnly => readOnly

/-- The connection of the call while `self::$dbSplit` is `dbSplit`. -/
def LayerCall.server (c : LayerCall V) (dbSplit : String) : String :=
  (c.cls.under dbSplit).getPdoName c.op.readOnly false

/-- `self::$dbSplit` after the calls: the last that was given. -/
def lastGiven (dbSplit : String) (calls : List (LayerCall V)) : String :=
  calls.foldl (fun d c => if missingSuffix c.dbSplit then d else c.dbSplit) dbSplit

end ArrayLayer

end

end RubbishStore.Pdo
