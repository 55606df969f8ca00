import RubbishStore.Pdo.MysqlRows
import RubbishStore.Pdo.Steps

/- Model classes over a table. `ModelClass.Stored` says that a mapping fits its
   table: properties and columns correspond one to one, and the primary key is
   the table's. An object `Shows` a row when each of its properties is the row's
   column; the objects the accessor fills do, and the statements it sends for one
   key are statements on that key. -/
namespace RubbishStore.Pdo
open RubbishStore.Lib
open Method

section
variable {V : Type}

/-- The mapping of `suffix` fits its table, a split class is used with a suffix,
    and objects of different keys are cached under different names. -/
structure ModelClass.Stored (cls : ModelClass V) (E : Engine V) (suffix : String) : Prop where
  suffixed : (cls.splittable && missingSuffix suffix) = false
  key : (cls.getMapping suffix).key = some (cls.getMapping suffix).keyName
  key_mem : (cls.getMapping suffix).keyName ∈ (cls.getMapping suffix).properties
  properties_nodup : (cls.getMapping suffix).properties.Nodup
  columns_nodup : ((cls.getMapping suffix).columns.map Prod.snd).Nodup
  columns_mem : ∀ c ∈ (cls.getMapping suffix).columns, c.2 ∈ E.columns (cls.getMapping suffix).table
  keyColumn : E.keyColumn (cls.getMapping suffix).table =
    (cls.getMapping suffix).toDb (cls.getMapping suffix).keyName
  declared : ∀ p ∈ declaredProperties, p ∉ (cls.getMapping suffix).properties
  getObjKey : ∀ id id', cls.getObjKey (some id) = cls.getObjKey (some id') → id = id'

/-- The object has the property values of the row. -/
def ModelClass.Shows (cls : ModelClass V) (suffix : String) (o : Obj V) (r : FetchRow V) : Prop :=
  ∀ p ∈ (cls.getMapping suffix).properties, o.get p = cell ((cls.getMapping suffix).toDb p) r

/-- The row of a key of the class. -/
def World.rowOf [DecidableEq V] {E : Engine V} (w : World E) (cls : ModelClass V) (suffix : String)
    (id : V) : Option (FetchRow V) := (w.table (cls.getMapping suffix).table).row id

/-- What memcache holds for a key of the class. -/
def World.cached {E : Engine V} (w : World E) (cls : ModelClass V) (id : V) : Option (Obj V) :=
  w.cache.lookup (cls.getObjKey (some id))

/-! Mappings. -/

namespace ModelClass.Stored
variable {cls : ModelClass V} {E : Engine V} {suffix : String} (hst : cls.Stored E suffix)
include hst

theorem column_mem {p : String} (hp : p ∈ (cls.getMapping suffix).properties) :
    (p, (cls.getMapping suffix).toDb p) ∈ (cls.getMapping suffix).columns := by
  obtain ⟨⟨p', c⟩, hc, rfl⟩ := List.mem_map.mp hp
  have hlookup : (cls.getMapping suffix).columns.lookup p' = some c :=
    lookup_of_mem hst.properties_nodup hc
  rw [Mapping.toDb, hlookup]
  exact hc

theorem toDb_mem {p : String} (hp : p ∈ (cls.getMapping suffix).properties) :
    (cls.getMapping suffix).toDb p ∈ E.columns (cls.getMapping suffix).table :=
  hst.columns_mem _ (hst.column_mem hp)

theorem toDb_inj {p q : String} (hp : p ∈ (cls.getMapping suffix).properties)
    (hq : q ∈ (cls.getMapping suffix).properties)
    (h : (cls.getMapping suffix).toDb p = (cls.getMapping suffix).toDb q) : p = q := by
  have hinj := List.inj_on_of_nodup_map hst.columns_nodup (hst.column_mem hp) (hst.column_mem hq) h
  exact congrArg Prod.fst hinj

theorem isLoaded_not_mem : "isLoaded" ∉ (cls.getMapping suffix).properties :=
  hst.declared _ (by simp [declaredProperties])

end ModelClass.Stored

/-! Objects from rows. -/

section
variable [PhpScalar V] {cls : ModelClass V} {E : Engine V} {suffix : String}

/-- Objects of the class can be built. -/
theorem ModelClass.Stored.construct (hst : cls.Stored E suffix) :
    ∃ obj, cls.construct suffix = .ok obj := by
  unfold ModelClass.construct
  rw [hst.suffixed]
  exact ⟨_, rfl⟩

/-- Every property of a filled object is its column. -/
theorem ModelClass.Stored.shows_fill (hst : cls.Stored E suffix) {a : Accessor V}
    (ha : a.mapping = cls.getMapping suffix) (obj : Obj V) (r : FetchRow V) :
    cls.Shows suffix (a.fill obj r) r := by
  intro p hp
  have hne : "isLoaded" ≠ p := fun h => hst.isLoaded_not_mem (h ▸ hp)
  have hread := Obj.get_foldl_set_mem (Prod.fst : String × String → String)
    (fun c => (r.lookup c.2).join) (cls.getMapping suffix).columns obj hst.properties_nodup
    (hst.column_mem hp)
  rw [Accessor.fill, ha, Obj.get_set_ne _ _ hne]
  exact hread

omit [PhpScalar V] in
/-- The key of an object that shows a row is the key of the row. -/
theorem ModelClass.Stored.shows_key (hst : cls.Stored E suffix) {o : Obj V} {r : FetchRow V}
    (h : cls.Shows suffix o r) :
    o.get (cls.getMapping suffix).keyName = cell (E.keyColumn (cls.getMapping suffix).table) r := by
  rw [hst.keyColumn]
  exact h _ hst.key_mem

end

/-- The class of users fits their table. -/
theorem userClass_stored : userClass.Stored userEngine "" where
  suffixed := by decide
  key := by decide
  key_mem := by decide
  properties_nodup := by decide
  columns_nodup := by decide
  columns_mem := by decide
  keyColumn := by decide
  declared := by decide
  getObjKey id id' h := by simpa [userClass] using h

/-- A user before its row is filled in. -/
def newUser : Obj String where
  cls := "User"
  props :=
    [("splitSuffix", some ""), ("cache_expire", some "86400"), ("isLoaded", some ""), ("id", none),
      ("name", none), ("state", none)]

/-- The object of the user's row. -/
def ann : Obj String where
  cls := "User"
  props :=
    [("splitSuffix", some ""), ("cache_expire", some "86400"), ("isLoaded", some "1"),
      ("id", some "7"), ("name", some "ann"), ("state", some "new")]

/-! Statements. -/

/-- What a prepared accessor hands to PDO. -/
theorem Accessor.sent_prepare (a : Accessor V) (t : Terminal) :
    (a.prepare t).sent t = ⟨(a.stmt t).text, a.pdoValues ++ (a.stmt t).values, a.stmt t⟩ := by
  rw [prepare_eq]
  cases t <;> rfl

section
variable [DecidableEq V] [PhpScalar V] {E : Engine V} {τ β : Type}

theorem Engine.serve_none : E.serve (fun _ => none) = E.answer := rfl

/-- A statement of an accessor that has bound nothing before. -/
theorem Engine.serve_execute (fault : Eff V → Option PhpException) {a : Accessor V}
    (ha : a.pdoValues = []) (t : Terminal) (con : String) (w : World E) :
    E.serve fault (.execute con ((a.prepare t).sent t)) w =
      match fault (.execute con ((a.prepare t).sent t)) with
      | some err => (.error err, w)
      | none => E.execute w (a.stmt t) := by
  unfold serve
  cases fault (.execute con ((a.prepare t).sent t)) with
  | some err => rfl
  | none =>
    rw [Accessor.sent_prepare, ha, List.nil_append]
    exact if_pos rfl

theorem Engine.answer_execute {a : Accessor V} (ha : a.pdoValues = []) (t : Terminal) (con : String)
    (w : World E) : E.answer (.execute con ((a.prepare t).sent t)) w = E.execute w (a.stmt t) := by
  rw [← Engine.serve_none]
  exact Engine.serve_execute (fun _ => none) ha t con w

/-- A connection opens without a trace where beginning a transaction does not raise. -/
theorem run_opening {fault : Eff V → Option PhpException}
    (hbegin : ∀ con, fault (.beginTransaction con) = none) (s : Self V) (u : τ) (k : Steps V τ β)
    (w : World E) : (opening s u k).run (E.serve fault) w = k.run (E.serve fault) w := by
  unfold opening
  split
  · rw [run_attempt, Engine.serve, hbegin]
    rfl
  · rfl

/-- One statement, sent to the server. -/
theorem run_sends {fault : Eff V → Option PhpException}
    (hbegin : ∀ con, fault (.beginTransaction con) = none) {s : Self V} (hs : s.this.pdoValues = [])
    (t : Terminal) (u u' : τ) (k : Fetched V → Steps V τ β) (w : World E) :
    (sends s t u u' k).run (E.serve fault) w =
      match fault (.execute (s.this.prepare t).pdoName ((s.this.prepare t).sent t)) with
      | some err => ((.error err, u'), w)
      | none =>
        match E.execute w (s.this.stmt t) with
        | (.ok f, w') => (k f).run (E.serve fault) w'
        | (.error err, w') => ((.error err, u'), w') := by
  rw [sends, run_opening hbegin, run_attempt, Engine.serve_execute fault hs]
  cases fault (.execute (s.this.prepare t).pdoName ((s.this.prepare t).sent t)) with
  | some err => rfl
  | none => rcases E.execute w (s.this.stmt t) with ⟨_ | f, w'⟩ <;> rfl

/-- And answered. -/
theorem run_sends_answer {s : Self V} (hs : s.this.pdoValues = []) (t : Terminal) (u u' : τ)
    (k : Fetched V → Steps V τ β) (w : World E) :
    (sends s t u u' k).run E.answer w =
      match E.execute w (s.this.stmt t) with
      | (.ok f, w') => (k f).run E.answer w'
      | (.error err, w') => ((.error err, u'), w') := by
  have hrun := @run_sends V _ _ E τ β (fun _ => none) (fun _ => rfl) s hs t u u' k w
  exact hrun

end

end

end RubbishStore.Pdo
