import RubbishStore.Pdo.Calls

/- `APF_DB_DataObject`: model objects that save and delete themselves. A method
   of an object has the object and the static fields of the accessor as its
   state; the class it was called on is a parameter. Each write gets a fresh
   accessor of the object's own suffix, and keeps memcache up to date: `_insert`
   after its statement, `_update` and `delete` before theirs.
   Setters and getters that a subclass defines for single properties are left
   out: `__set` and `__get` are those of a class without them. -/
namespace RubbishStore.Pdo
open RubbishStore.Lib

section
variable {V : Type} [PhpScalar V]

/-- `get_mapping($this->splitSuffix)`. -/
def ModelClass.mappingOf (cls : ModelClass V) (o : Obj V) : Mapping := cls.getMapping o.splitSuffix

/-- `__get` and `__set` on a property that is neither there nor mapped. -/
def ModelClass.noProperty (cls : ModelClass V) (name : String) : PhpException :=
  { message := name ++ " is not " ++ cls.name ++ "'s property." }

/-- `$this->$name = $value`. -/
def ModelClass.assign (cls : ModelClass V) (o : Obj V) (name : String) (value : Val V) :
    Except PhpException (Obj V) :=
  if name ∈ assocKeys o.props ∨ name ∈ (cls.mappingOf o).properties then .ok (o.set name value)
  else .error (cls.noProperty name)

/-- `foreach ($data as $key => $value) $this->$key = $value`: the first that
    raises ends the loop, and the writes before it stay. -/
def ModelClass.assignEach (cls : ModelClass V) :
    List (String × Val V) → Obj V → Except PhpException Unit × Obj V
  | [], o => (.ok (), o)
  | (name, value) :: data, o =>
    match cls.assign o name value with
    | .ok o => cls.assignEach data o
    | .error e => (.error e, o)

/-- `$this->$name`. -/
def ModelClass.read (cls : ModelClass V) (o : Obj V) (name : String) : Except PhpException (Val V) :=
  if name ∈ assocKeys o.props ∨ name ∈ (cls.mappingOf o).properties then .ok (o.get name)
  else .error (cls.noProperty name)

/-- The loop touches the properties it names, and no others. -/
theorem ModelClass.get_assignEach (cls : ModelClass V) {data : List (String × Val V)} {q : String}
    (hq : q ∉ assocKeys data) (o : Obj V) : (cls.assignEach data o).2.get q = o.get q := by
  induction data generalizing o with
  | nil => rfl
  | cons p data ih =>
    rw [assocKeys_cons, List.mem_cons, not_or] at hq
    unfold assignEach assign
    by_cases hp : p.1 ∈ assocKeys o.props ∨ p.1 ∈ (cls.mappingOf o).properties
    · simp only [if_pos hp]
      rw [ih hq.2, Obj.get_set_ne _ _ (Ne.symm hq.1)]
    · simp only [if_neg hp]

/-- `$this` of a model object, and the static fields of the accessor. -/
structure ObjSelf (V : Type) where
  this : Obj V
  statics : Statics

/-- The state with the static suffix that a fresh accessor of the object leaves. -/
def ObjSelf.using (s : ObjSelf V) : ObjSelf V :=
  { s with statics := { s.statics with splitSuffix := s.this.splitSuffix } }

/-- A method of a model object. -/
abbrev ObjM (V α : Type) : Type := Php V (ObjSelf V) α

namespace DataObject

/-- `create`: a new object with the properties of `data`, the key aside. -/
def create (cls : ModelClass V) (data : List (String × Val V)) (splitSuffix : String := "") :
    Except PhpException (Obj V) := do
  let model ← cls.construct splitSuffix
  let (r, model) := cls.assignEach (assocErase data (cls.getMapping splitSuffix).keyName) model
  r
  pure model

def getPrimaryKey (cls : ModelClass V) : ObjM V V := do
  let s ← Method.get
  match s.this.get (cls.mappingOf s.this).keyName with
  | some id => pure id
  | none => Method.throw { message := "obj must have key first!", code := "010" }

/-- `_cache_update`. -/
def cacheUpdate (cls : ModelClass V) : ObjM V Unit := do
  let id ← getPrimaryKey cls
  let s ← Method.get
  ask (.cacheSet (cls.getObjKey (some id)) s.this (s.this.get "cache_expire"))

/-- `_cache_delete`. -/
def cacheDelete (cls : ModelClass V) : ObjM V Unit := do
  let id ← getPrimaryKey cls
  ask (.cacheDelete (cls.getObjKey (some id)))

/-- `_get_accessor`. -/
def getAccessor (cls : ModelClass V) : ObjM V (Accessor V) := do
  let s ← Method.get
  let r ← Method.on ObjSelf.statics (fun s st => { s with statics := st })
    (MysqlAccessor.useModel cls s.this.splitSuffix)
  pure r.1

/-- The accessor with `set_field` for every property that is not null. -/
def setFields (cls : ModelClass V) (o : Obj V) (a : Accessor V) : Accessor V :=
  (cls.mappingOf o).properties.foldl
    (fun a property =>
      match o.get property with
      | some v => a.setField property (some v)
      | none => a) a

/-- A call on an accessor the method holds: its result, and the accessor after it. -/
def onAccessor {α : Type} (a : Accessor V) (m : AccM V α) : ObjM V (α × Accessor V) := do
  let r ← Method.on (fun s : ObjSelf V => (⟨a, s.statics⟩ : Self V))
    (fun s t => { s with statics := t.statics }) m
  pure (r.1, r.2.this)

/-- `_insert`. It looks at `enable_cache` alone. -/
def insert (cls : ModelClass V) : ObjM V Nat := do
  let accessor ← getAccessor cls
  let s ← Method.get
  let (rs, accessor) ← onAccessor (setFields cls s.this accessor) (MysqlAccessor.insert "insert")
  let id ← ask (.lastInsertId (accessor.connection.getD ""))
  let o ← Method.lift (cls.assign s.this (cls.mappingOf s.this).keyName id)
  Method.modify fun s => { s with this := o.set "isLoaded" (some (PhpScalar.ofBool true)) }
  if cls.enableCache then cacheUpdate cls
  pure rs

/-- A write on the object's own row: a fresh accessor, prepared by `fill` and
    filtered by the primary key. -/
def onOwnRow (cls : ModelClass V) (fill : Obj V → Accessor V → Accessor V) (write : AccM V Nat) :
    ObjM V Nat := do
  let accessor ← getAccessor cls
  let s ← Method.get
  let accessor := fill s.this accessor
  let id ← getPrimaryKey cls
  let accessor ← Method.lift (accessor.filter (cls.mappingOf s.this).keyName (.scalar (some id)))
  let (rs, _) ← onAccessor accessor write
  pure rs

/-- `_update`. -/
def update (cls : ModelClass V) : ObjM V Nat := do
  if cls.cacheEnable then cacheUpdate cls
  onOwnRow cls (setFields cls) MysqlAccessor.update

def delete (cls : ModelClass V) : ObjM V Nat := do
  if cls.cacheEnable then cacheDelete cls
  onOwnRow cls (fun _ a => a) MysqlAccessor.delete

/-- `save`. The loop over `$data` writes `$key`: what is tested for null is the
    last property of `$data`, and the primary key only where there is none. -/
def save (cls : ModelClass V) (data : List (String × Val V) := []) : ObjM V Nat := do
  let s ← Method.get
  let key := (cls.mappingOf s.this).keyName
  let data := assocErase data key
  let (r, o) := cls.assignEach data s.this
  Method.modify fun s => { s with this := o }
  Method.lift r
  let s ← Method.get
  if s.this.isLoaded then
    let value ← Method.lift (cls.read s.this ((data.getLast?.map Prod.fst).getD key))
    if value.isNone then insert cls else update cls
  else insert cls

/-! What the parts of a method do. -/

section
open Method

variable {W : Type} (h : Outside V W) (cls : ModelClass V)

omit [PhpScalar V] in
theorem exec_useModel (suffix : String) (st : Statics) (w : W) :
    exec h (MysqlAccessor.useModel cls suffix) st w =
      (if (cls.getMapping suffix).key = none then
          .error { message := "no primary key", code := "001" }
        else .ok (Accessor.fresh cls suffix),
        { st with splitSuffix := suffix }, w) := by
  simp only [MysqlAccessor.useModel, exec_bind, exec_modify, exec_get, exec_ite, exec_throw, exec_pure]
  show (if (cls.getMapping suffix).key = none then _ else _) = _
  split <;> rfl

omit [PhpScalar V] in
theorem effects_useModel (suffix : String) (st : Statics) (w : W) :
    effects h (MysqlAccessor.useModel cls suffix) st w = [] := by
  simp only [MysqlAccessor.useModel, effects_bind, exec_modify, effects_modify, exec_get, effects_get,
    effects_ite, effects_throw, effects_pure, List.nil_append, ite_self]

theorem exec_getAccessor (s : ObjSelf V) (w : W) :
    exec h (getAccessor cls) s w =
      (if (cls.mappingOf s.this).key = none then
          .error { message := "no primary key", code := "001" }
        else .ok (Accessor.fresh cls s.this.splitSuffix), s.using, w) := by
  simp only [getAccessor, exec_bind h s w get, exec_get, exec_bind_pure, exec_on, exec_useModel]
  show ((Except.map _ (if (cls.mappingOf s.this).key = none then _ else _)).map _, _) = _
  split <;> rfl

theorem effects_getAccessor (s : ObjSelf V) (w : W) : effects h (getAccessor cls) s w = [] := by
  simp only [getAccessor, effects_bind h s w get, effects_get, exec_get, effects_bind_pure, effects_on,
    effects_useModel, List.nil_append]

/-- A method that begins with `_get_accessor` goes on with a fresh accessor. -/
theorem mem_effects_getAccessor {α : Type} {f : Accessor V → ObjM V α} {s : ObjSelf V} {w : W}
    {e : Eff V} (hmem : e ∈ effects h (getAccessor cls >>= f) s w) :
    e ∈ effects h (f (Accessor.fresh cls s.this.splitSuffix)) s.using w := by
  rw [mem_effects_bind, effects_getAccessor] at hmem
  obtain hmem | ⟨a, s', w', hexec, hmem⟩ := hmem
  · cases hmem
  rw [exec_getAccessor, Prod.mk.injEq, Prod.mk.injEq] at hexec
  obtain ⟨hfresh, rfl, rfl⟩ := hexec
  split at hfresh
  · cases hfresh
  · cases hfresh
    exact hmem

omit [PhpScalar V] in
theorem effects_onAccessor {α : Type} (a : Accessor V) (m : AccM V α) (s : ObjSelf V) (w : W) :
    effects h (onAccessor a m) s w = effects h m ⟨a, s.statics⟩ w := by
  simp only [onAccessor, effects_bind_pure, effects_on]

theorem exec_getPrimaryKey (s : ObjSelf V) (w : W) :
    exec h (getPrimaryKey cls) s w =
      (match s.this.get (cls.mappingOf s.this).keyName with
        | some id => .ok id
        | none => .error { message := "obj must have key first!", code := "010" }, s, w) := by
  simp only [getPrimaryKey, exec_bind, exec_get]
  cases s.this.get (cls.mappingOf s.this).keyName <;> rfl

theorem effects_getPrimaryKey (s : ObjSelf V) (w : W) :
    effects h (getPrimaryKey cls) s w = [] := by
  simp only [getPrimaryKey, effects_bind, effects_get, exec_get, List.nil_append]
  cases s.this.get (cls.mappingOf s.this).keyName <;> rfl

/-! The statements the writes send. -/

/-- The cache calls change nothing of the process, and send no statement. -/
theorem exec_cacheUpdate (s : ObjSelf V) (w : W) : (exec h (cacheUpdate cls) s w).2.1 = s := by
  simp only [cacheUpdate, exec_bind, exec_getPrimaryKey, exec_get, exec_perform]
  cases s.this.get (cls.mappingOf s.this).keyName <;> rfl

theorem exec_cacheDelete (s : ObjSelf V) (w : W) : (exec h (cacheDelete cls) s w).2.1 = s := by
  simp only [cacheDelete, exec_bind, exec_getPrimaryKey, exec_perform]
  cases s.this.get (cls.mappingOf s.this).keyName <;> rfl

theorem execute_not_mem_cacheUpdate (s : ObjSelf V) (w : W) {con : String} {sent : Sent V} :
    .execute con sent ∉ effects h (cacheUpdate cls) s w := by
  intro hmem
  rw [cacheUpdate, mem_effects_bind, effects_getPrimaryKey] at hmem
  obtain hmem | ⟨id, s', w', -, hmem⟩ := hmem <;> simp at hmem

theorem execute_not_mem_cacheDelete (s : ObjSelf V) (w : W) {con : String} {sent : Sent V} :
    .execute con sent ∉ effects h (cacheDelete cls) s w := by
  intro hmem
  rw [cacheDelete, mem_effects_bind, effects_getPrimaryKey] at hmem
  obtain hmem | ⟨id, s', w', -, hmem⟩ := hmem <;> simp at hmem

/-- The accessor a write fills: fresh, of the object's own suffix. -/
def writer (cls : ModelClass V) (o : Obj V) : Accessor V :=
  setFields cls o (Accessor.fresh cls o.splitSuffix)

/-- The assignments of a write: the properties that are not null. -/
def written (cls : ModelClass V) (o : Obj V) : List (String × Val V) :=
  (cls.mappingOf o).properties.foldl
    (fun sets property =>
      match o.get property with
      | some v => assocSet sets property (some v)
      | none => sets) []

theorem writer_eq (o : Obj V) :
    writer cls o = { Accessor.fresh cls o.splitSuffix with setFields := written cls o } := by
  have hfold : ∀ (ps : List String) (a : Accessor V),
      ps.foldl (fun a property =>
        match o.get property with
        | some v => a.setField property (some v)
        | none => a) a =
      { a with setFields := ps.foldl (fun sets property =>
        match o.get property with
        | some v => assocSet sets property (some v)
        | none => sets) a.setFields } := by
    intro ps
    induction ps with
    | nil => exact fun _ => rfl
    | cons p ps ih =>
      intro a
      rw [List.foldl_cons, List.foldl_cons, ih]
      cases o.get p <;> rfl
  exact hfold _ _

theorem writer_mapping (o : Obj V) : (writer cls o).mapping = cls.mappingOf o := by
  rw [writer_eq]
  rfl

/-- An accessor filtered by the object's primary key. -/
def keyed (cls : ModelClass V) (o : Obj V) (a : Accessor V) : Accessor V :=
  a.filterByOp (cls.mappingOf o).keyName "=" (.scalar (o.get (cls.mappingOf o).keyName))

/-- `_insert` sends one statement: the insert of the writer. -/
theorem execute_mem_insert {s : ObjSelf V} {w : W} {con : String} {sent : Sent V}
    (hmem : .execute con sent ∈ effects h (insert cls) s w) :
    sent = ((writer cls s.this).prepare (.insert "insert")).sent (.insert "insert") := by
  rw [insert] at hmem
  replace hmem := mem_effects_getAccessor h cls hmem
  simp only [effects_bind h s.using w Method.get, effects_get, exec_get, List.nil_append] at hmem
  rw [mem_effects_bind, effects_onAccessor] at hmem
  obtain hmem | ⟨r, s', w'', -, hmem⟩ := hmem
  · rw [MysqlAccessor.insert, MysqlAccessor.effects_executeWrite] at hmem
    exact (MysqlAccessor.execute_mem_executeInternal h _ _ hmem).2
  · -- after its statement: `lastInsertId`, and the cache
    rw [mem_effects_bind] at hmem
    obtain hmem | ⟨id, s', w'', -, hmem⟩ := hmem
    · simp at hmem
    rw [mem_effects_bind] at hmem
    obtain hmem | ⟨o, s', w'', -, hmem⟩ := hmem
    · simp at hmem
    rw [mem_effects_bind] at hmem
    obtain hmem | ⟨_, s', w'', -, hmem⟩ := hmem
    · simp at hmem
    split at hmem
    · rw [mem_effects_bind] at hmem
      obtain hmem | ⟨_, s', w'', -, hmem⟩ := hmem
      · exact absurd hmem (execute_not_mem_cacheUpdate h cls _ _)
      · simp at hmem
    · simp at hmem

/-- A write on the object's own row sends one statement. -/
theorem execute_mem_onOwnRow {fill : Obj V → Accessor V → Accessor V} {t : Terminal} {s : ObjSelf V}
    {w : W} {con : String} {sent : Sent V}
    (hmem : .execute con sent ∈ effects h (onOwnRow cls fill (MysqlAccessor.executeWrite t)) s w) :
    sent = ((keyed cls s.this (fill s.this (Accessor.fresh cls s.this.splitSuffix))).prepare t).sent
      t := by
  rw [onOwnRow] at hmem
  replace hmem := mem_effects_getAccessor h cls hmem
  simp only [effects_bind h s.using w Method.get, effects_get, exec_get, List.nil_append] at hmem
  rw [mem_effects_bind, effects_getPrimaryKey, exec_getPrimaryKey] at hmem
  obtain hmem | ⟨id, s', w', hexec, hmem⟩ := hmem
  · simp at hmem
  change (match s.this.get (cls.mappingOf s.this).keyName with
    | some id => _
    | none => _, _, _) = _ at hexec
  cases hid : s.this.get (cls.mappingOf s.this).keyName with
  | none => simp [hid] at hexec
  | some id' =>
    simp only [hid, Prod.mk.injEq, Except.ok.injEq] at hexec
    obtain ⟨rfl, rfl, rfl⟩ := hexec
    rw [mem_effects_bind] at hmem
    obtain hmem | ⟨a, s', w', hexec, hmem⟩ := hmem
    · simp at hmem
    simp only [exec_lift, Accessor.filter, Prod.mk.injEq, Except.ok.injEq] at hexec
    obtain ⟨rfl, rfl, rfl⟩ := hexec
    rw [mem_effects_bind, effects_onAccessor] at hmem
    obtain hmem | ⟨_, s', w', -, hmem⟩ := hmem
    · rw [MysqlAccessor.effects_executeWrite] at hmem
      rw [(MysqlAccessor.execute_mem_executeInternal h _ _ hmem).2, keyed, hid]
      rfl
    · simp at hmem

/-- `_update` sends one statement: the update of the object's own row. -/
theorem execute_mem_update {s : ObjSelf V} {w : W} {con : String} {sent : Sent V}
    (hmem : .execute con sent ∈ effects h (update cls) s w) :
    sent = ((keyed cls s.this (writer cls s.this)).prepare .update).sent .update := by
  unfold update at hmem
  split at hmem
  · rw [mem_effects_bind] at hmem
    obtain hmem | ⟨_, s', w', hexec, hmem⟩ := hmem
    · exact absurd hmem (execute_not_mem_cacheUpdate h cls s w)
    · have hs : s' = s := by
        rw [← exec_cacheUpdate h cls s w, hexec]
      subst hs
      exact execute_mem_onOwnRow h cls hmem
  · exact execute_mem_onOwnRow h cls hmem

/-- `delete` sends one statement: the delete of the object's own row. -/
theorem execute_mem_delete {s : ObjSelf V} {w : W} {con : String} {sent : Sent V}
    (hmem : .execute con sent ∈ effects h (delete cls) s w) :
    sent = ((keyed cls s.this (Accessor.fresh cls s.this.splitSuffix)).prepare .delete).sent
      .delete := by
  unfold delete at hmem
  split at hmem
  · rw [mem_effects_bind] at hmem
    obtain hmem | ⟨_, s', w', hexec, hmem⟩ := hmem
    · exact absurd hmem (execute_not_mem_cacheDelete h cls s w)
    · have hs : s' = s := by
        rw [← exec_cacheDelete h cls s w, hexec]
      subst hs
      exact execute_mem_onOwnRow h cls hmem
  · exact execute_mem_onOwnRow h cls hmem

omit [PhpScalar V] in
/-- The table and the text of a prepared statement. -/
theorem sent_table (a : Accessor V) (t : Terminal) :
    ((a.prepare t).sent t).stmt.table = a.mapping.table ∧
      ((a.prepare t).sent t).sql = ((a.prepare t).sent t).stmt.text := by
  rw [Accessor.prepare_eq]
  exact ⟨rfl, rfl⟩

/-- Whatever it writes, `save` addresses the table of the object's suffix, as
    long as its data leaves the suffix alone. -/
theorem execute_mem_save {s : ObjSelf V} {w : W} {data : List (String × Val V)}
    (hdata : "splitSuffix" ∉ assocKeys data) {con : String} {sent : Sent V}
    (hmem : .execute con sent ∈ effects h (save cls data) s w) :
    sent.stmt.table = (cls.mappingOf s.this).table ∧ sent.sql = sent.stmt.text := by
  let data' := assocErase data (cls.mappingOf s.this).keyName
  let o := (cls.assignEach data' s.this).2
  have hkeys : "splitSuffix" ∉ assocKeys data' := fun hmem => hdata (mem_assocKeys_erase.mp hmem).1
  have hmapping : cls.mappingOf o = cls.mappingOf s.this := by
    unfold ModelClass.mappingOf Obj.splitSuffix
    rw [cls.get_assignEach hkeys]
  have hinsert : ∀ w', .execute con sent ∈ effects h (insert cls) { s with this := o } w' →
      sent.stmt.table = (cls.mappingOf s.this).table ∧ sent.sql = sent.stmt.text := by
    intro w' hmem
    rw [execute_mem_insert h cls hmem, ← hmapping, ← writer_mapping cls o]
    exact sent_table _ _
  have hupdate : ∀ w', .execute con sent ∈ effects h (update cls) { s with this := o } w' →
      sent.stmt.table = (cls.mappingOf s.this).table ∧ sent.sql = sent.stmt.text := by
    intro w' hmem
    rw [execute_mem_update h cls hmem, ← hmapping, ← writer_mapping cls o]
    exact sent_table _ _
  simp only [save, effects_bind h s w Method.get, effects_get, exec_get, List.nil_append] at hmem
  rw [mem_effects_bind] at hmem
  obtain hmem | ⟨_, s₁, w₁, hexec, hmem⟩ := hmem
  · simp at hmem
  rw [exec_modify, Prod.mk.injEq, Prod.mk.injEq] at hexec
  obtain ⟨-, rfl, rfl⟩ := hexec
  rw [mem_effects_bind] at hmem
  obtain hmem | ⟨_, s₂, w₂, hexec, hmem⟩ := hmem
  · simp at hmem
  rw [exec_lift, Prod.mk.injEq, Prod.mk.injEq] at hexec
  obtain ⟨-, rfl, rfl⟩ := hexec
  rw [mem_effects_bind] at hmem
  obtain hmem | ⟨_, s₃, w₃, hexec, hmem⟩ := hmem
  · simp at hmem
  rw [exec_get, Prod.mk.injEq, Prod.mk.injEq, Except.ok.injEq] at hexec
  obtain ⟨rfl, rfl, rfl⟩ := hexec
  split at hmem
  · rw [mem_effects_bind] at hmem
    obtain hmem | ⟨value, s₄, w₄, hexec, hmem⟩ := hmem
    · simp at hmem
    rw [exec_lift, Prod.mk.injEq, Prod.mk.injEq] at hexec
    obtain ⟨-, rfl, rfl⟩ := hexec
    split at hmem
    · exact hinsert _ hmem
    · exact hupdate _ hmem
  · exact hinsert _ hmem

end

end DataObject

end

end RubbishStore.Pdo
