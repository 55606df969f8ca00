import RubbishStore.Pdo.Stored

/- The writes of an object as trees of outside calls. An update stores `$this` in
   the cache and then sends its statement; a delete removes the cached object
   and then sends its statement; an insert sends its statement, asks for the new
   key and stores `$this`. `save` is one of update and insert. -/
namespace RubbishStore.Pdo
open RubbishStore.Lib
open Method

section
variable {V : Type} [PhpScalar V]

/-- With a connection in the pool. -/
def ObjSelf.joined (s : ObjSelf V) (con : String) : ObjSelf V :=
  { s with statics := s.statics.join con }

namespace DataObject
variable {cls : ModelClass V}

/-! The parts. -/

omit [PhpScalar V] in
theorem tree_useModel {suffix : String} (hkey : (cls.getMapping suffix).key ≠ none) (st : Statics) :
    tree (MysqlAccessor.useModel cls suffix) st =
      .ret (.ok (Accessor.fresh cls suffix), { st with splitSuffix := suffix }) := by
  simp only [MysqlAccessor.useModel, tree_bind, tree_modify, tree_get, Prog.bind_ret, andThen_ok,
    tree_ite]
  exact if_neg hkey

theorem tree_getAccessor (s : ObjSelf V) (hkey : (cls.mappingOf s.this).key ≠ none) :
    tree (getAccessor cls) s = .ret (.ok (Accessor.fresh cls s.this.splitSuffix), s.using) := by
  have huse : tree (MysqlAccessor.useModel cls s.this.splitSuffix) s.statics =
      .ret (.ok (Accessor.fresh cls s.this.splitSuffix), s.using.statics) := tree_useModel hkey s.statics
  simp only [getAccessor, tree_bind, tree_get, Prog.bind_ret, andThen_ok, tree_on, huse]
  rfl

theorem tree_getPrimaryKey {s : ObjSelf V} {id : V}
    (hid : s.this.get (cls.mappingOf s.this).keyName = some id) :
    tree (getPrimaryKey cls) s = .ret (.ok id, s) := by
  simp only [getPrimaryKey, tree_bind, tree_get, Prog.bind_ret, andThen_ok, hid, tree_pure]

/-- `_cache_update`. -/
theorem tree_cacheUpdate (s : ObjSelf V) :
    tree (cacheUpdate cls) s =
      match s.this.get (cls.mappingOf s.this).keyName with
      | some id =>
        attempt (Eff.cacheSet (cls.getObjKey (some id)) s.this (s.this.get "cache_expire")) s fun _ =>
          .ret (.ok (), s)
      | none => .ret (.error { message := "obj must have key first!", code := "010" }, s) := by
  cases hid : s.this.get (cls.mappingOf s.this).keyName with
  | some id =>
    simp only [cacheUpdate, tree_bind, tree_getPrimaryKey hid, tree_get, Prog.bind_ret, andThen_ok,
      tree_perform]
  | none =>
    simp only [cacheUpdate, getPrimaryKey, tree_bind, tree_get, Prog.bind_ret, andThen_ok, hid,
      tree_throw, andThen_error]

omit [PhpScalar V] in
/-- A write on an accessor the method holds. -/
theorem tree_onAccessor (a : Accessor V) (t : Terminal) (s : ObjSelf V) :
    tree (onAccessor a (MysqlAccessor.executeWrite t)) s =
      sends ⟨a, s.statics⟩ t s (s.joined (a.prepare t).pdoName) fun f =>
        .ret (.ok (f.rowCount, { a.prepare t with connection := some (a.prepare t).pdoName }),
          s.joined (a.prepare t).pdoName) := by
  simp only [onAccessor, tree_bind, tree_on, MysqlAccessor.tree_executeWrite]
  rw [sends_bind_on _ _ _ _ _ fun t : Self V => ({ s with statics := t.statics } : ObjSelf V),
    sends_bind]
  rfl

/-- The accessor of an update: the values of the object, and its key. -/
def updater (cls : ModelClass V) (o : Obj V) : Accessor V := keyed cls o (writer cls o)

/-- The accessor of a delete. -/
def deleter (cls : ModelClass V) (o : Obj V) : Accessor V :=
  keyed cls o (Accessor.fresh cls o.splitSuffix)

/-- The statement on the object's own row, and its row count. -/
def sendsOwn (s : ObjSelf V) (a : Accessor V) (t : Terminal) : Steps V (ObjSelf V) Nat :=
  sends ⟨a, s.using.statics⟩ t s.using (s.using.joined (a.prepare t).pdoName) fun f =>
    .ret (.ok f.rowCount, s.using.joined (a.prepare t).pdoName)

theorem tree_onOwnRow {s : ObjSelf V} {id : V} (hkey : (cls.mappingOf s.this).key ≠ none)
    (hid : s.this.get (cls.mappingOf s.this).keyName = some id)
    (fill : Obj V → Accessor V → Accessor V) (t : Terminal) :
    tree (onOwnRow cls fill (MysqlAccessor.executeWrite t)) s =
      sendsOwn s (keyed cls s.this (fill s.this (Accessor.fresh cls s.this.splitSuffix))) t := by
  have hprimary : tree (getPrimaryKey cls) s.using = .ret (.ok id, s.using) := tree_getPrimaryKey hid
  simp only [onOwnRow, tree_bind, tree_getAccessor s hkey, tree_get, Prog.bind_ret, andThen_ok, hprimary,
    Accessor.filter, tree_lift, tree_onAccessor, sends_bind, tree_pure]
  rw [sendsOwn, keyed, hid]
  rfl

/-! The writes. -/

/-- `_update`: the cache, then the statement. -/
theorem tree_update {s : ObjSelf V} {id : V} (hkey : (cls.mappingOf s.this).key ≠ none)
    (hid : s.this.get (cls.mappingOf s.this).keyName = some id) :
    tree (update cls) s =
      if cls.cacheEnable then
        attempt (Eff.cacheSet (cls.getObjKey (some id)) s.this (s.this.get "cache_expire")) s fun _ =>
          sendsOwn s (updater cls s.this) .update
      else sendsOwn s (updater cls s.this) .update := by
  have hown : tree (onOwnRow cls (setFields cls) MysqlAccessor.update) s =
      sendsOwn s (updater cls s.this) .update := tree_onOwnRow hkey hid (setFields cls) .update
  have hcache : tree (cacheUpdate cls) s =
      attempt (Eff.cacheSet (cls.getObjKey (some id)) s.this (s.this.get "cache_expire")) s fun _ =>
        .ret (.ok (), s) := by
    rw [tree_cacheUpdate, hid]
  simp only [update]
  cases cls.cacheEnable with
  | true =>
    simp only [if_true, tree_bind, hcache, attempt_bind, Prog.bind_ret, andThen_ok, hown]
  | false =>
    simpa only [Bool.false_eq_true, if_false, tree_bind, tree_pure, Prog.bind_ret, andThen_ok] using hown

/-- `delete`: the cache, then the statement. -/
theorem tree_delete {s : ObjSelf V} {id : V} (hkey : (cls.mappingOf s.this).key ≠ none)
    (hid : s.this.get (cls.mappingOf s.this).keyName = some id) :
    tree (delete cls) s =
      if cls.cacheEnable then
        attempt (Eff.cacheDelete (cls.getObjKey (some id))) s fun _ =>
          sendsOwn s (deleter cls s.this) .delete
      else sendsOwn s (deleter cls s.this) .delete := by
  have hown : tree (onOwnRow cls (fun _ a => a) MysqlAccessor.delete) s =
      sendsOwn s (deleter cls s.this) .delete := tree_onOwnRow hkey hid (fun _ a => a) .delete
  have hcache : tree (cacheDelete cls) s =
      attempt (Eff.cacheDelete (cls.getObjKey (some id))) s fun _ => .ret (.ok (), s) := by
    simp only [cacheDelete, tree_bind, tree_getPrimaryKey hid, Prog.bind_ret, andThen_ok,
      tree_perform]
  simp only [delete]
  cases cls.cacheEnable with
  | true =>
    simp only [if_true, tree_bind, hcache, attempt_bind, Prog.bind_ret, andThen_ok, hown]
  | false =>
    simpa only [Bool.false_eq_true, if_false, tree_bind, tree_pure, Prog.bind_ret, andThen_ok] using hown

/-- The object after its insert: it has its key, and counts as loaded. -/
def inserted (cls : ModelClass V) (o : Obj V) (id : Val V) : Obj V :=
  (o.set (cls.mappingOf o).keyName id).set "isLoaded" (some (PhpScalar.ofBool true))

/-- What is left of an insert once its statement went through. -/
def stores (cls : ModelClass V) (s : ObjSelf V) (rs : Nat) (id : Val V) : Steps V (ObjSelf V) Nat :=
  let s' : ObjSelf V := { s with this := inserted cls s.this id }
  if cls.enableCache then
    match id with
    | some id =>
      attempt (Eff.cacheSet (cls.getObjKey (some id)) s'.this (s'.this.get "cache_expire")) s' fun _ =>
        .ret (.ok rs, s')
    | none => .ret (.error { message := "obj must have key first!", code := "010" }, s')
  else .ret (.ok rs, s')

section
variable {E : Engine V}

/-- The new key is where `get_primary_key` looks for it. -/
theorem get_inserted {o : Obj V} (hst : cls.Stored E o.splitSuffix) (id : Val V) :
    (inserted cls o id).get (cls.mappingOf (inserted cls o id)).keyName = id := by
  have hkey : ∀ p ∈ declaredProperties, p ≠ (cls.mappingOf o).keyName :=
    fun p hp heq => hst.declared p hp (heq ▸ hst.key_mem)
  have hsuffix : (inserted cls o id).splitSuffix = o.splitSuffix := by
    unfold Obj.splitSuffix inserted
    rw [Obj.get_set_ne _ _ (by decide),
      Obj.get_set_ne _ _ (Ne.symm (hkey "splitSuffix" (by decide)))]
  rw [ModelClass.mappingOf, hsuffix]
  show ((o.set (cls.mappingOf o).keyName id).set "isLoaded" _).get (cls.mappingOf o).keyName = id
  rw [Obj.get_set_ne _ _ (hkey "isLoaded" (by decide)), Obj.get_set_self]

/-- `_insert`: the statement, then the cache. -/
theorem tree_insert {s : ObjSelf V} (hst : cls.Stored E s.this.splitSuffix) :
    tree (insert cls) s =
      let con := ((writer cls s.this).prepare (.insert "insert")).pdoName
      sends ⟨writer cls s.this, s.using.statics⟩ (.insert "insert") s.using (s.using.joined con) fun f =>
        attempt (Eff.lastInsertId con) (s.using.joined con) fun id =>
          stores cls (s.using.joined con) f.rowCount id := by
  have hkey : (cls.mappingOf s.this).key ≠ none := by
    rw [ModelClass.mappingOf, hst.key]
    exact Option.some_ne_none _
  have hassign : ∀ id, cls.assign s.this (cls.mappingOf s.this).keyName id =
      .ok (s.this.set (cls.mappingOf s.this).keyName id) :=
    fun id => if_pos (.inr hst.key_mem)
  have hwrite : ∀ (a : Accessor V) (s : ObjSelf V), tree (onAccessor a (MysqlAccessor.insert "insert")) s = _ :=
    fun a s => tree_onAccessor a (.insert "insert") s
  simp only [insert, tree_bind, tree_getAccessor s hkey, tree_get, Prog.bind_ret, andThen_ok, hwrite,
    sends_bind, tree_perform, attempt_bind, tree_lift]
  show sends _ _ _ _ _ = _
  congr 1
  funext f
  congr 1
  funext id
  -- the object has its key now, and goes to the cache
  show andThen _ (cls.assign s.this (cls.mappingOf s.this).keyName id, s.using.joined _) = _
  have hget := get_inserted hst id
  rw [hassign, andThen_ok]
  simp only [tree_bind, tree_modify, Prog.bind_ret, andThen_ok, stores]
  cases cls.enableCache with
  | true =>
    simp only [if_true, tree_bind]
    rw [tree_cacheUpdate]
    show Prog.bind (match (inserted cls s.this id).get
      (cls.mappingOf (inserted cls s.this id)).keyName with | some id => _ | none => _) _ = _
    rw [hget]
    cases id with
    | some id => exact attempt_bind _ _ _ _
    | none => rfl
  | false => rfl

end

/-! `save`. -/

/-- The properties written stay there. -/
theorem keys_assignEach {data : List (String × Val V)} {o : Obj V}
    (hok : (cls.assignEach data o).1 = .ok ()) {p : String}
    (hp : p ∈ assocKeys data ∨ p ∈ assocKeys o.props) :
    p ∈ assocKeys (cls.assignEach data o).2.props := by
  induction data generalizing o with
  | nil => exact hp.resolve_left (by simp [assocKeys])
  | cons d data ih =>
    obtain ⟨name, value⟩ := d
    unfold ModelClass.assignEach ModelClass.assign at hok ⊢
    by_cases hname : name ∈ assocKeys o.props ∨ name ∈ (cls.mappingOf o).properties
    · simp only [if_pos hname] at hok ⊢
      refine ih hok ?_
      rw [assocKeys_cons, List.mem_cons] at hp
      rw [Obj.set, mem_assocKeys_set]
      tauto
    · simp only [if_neg hname] at hok
      cases hok

/-- The object `save` writes: `$data` without the key, assigned. -/
def saved (cls : ModelClass V) (data : List (String × Val V)) (o : Obj V) :
    Except PhpException Unit × Obj V :=
  cls.assignEach (assocErase data (cls.mappingOf o).keyName) o

/-- The property whose null makes `save` insert. -/
def tested (cls : ModelClass V) (data : List (String × Val V)) (o : Obj V) : String :=
  ((assocErase data (cls.mappingOf o).keyName).getLast?.map Prod.fst).getD (cls.mappingOf o).keyName

/-- Whether `save` inserts: `!$this->isLoaded || is_null($this->$key)`. -/
def inserts (cls : ModelClass V) (data : List (String × Val V)) (o : Obj V) : Bool :=
  !(saved cls data o).2.isLoaded || ((saved cls data o).2.get (tested cls data o)).isNone

theorem splitSuffix_saved {data : List (String × Val V)} (hdata : "splitSuffix" ∉ assocKeys data)
    (o : Obj V) : (saved cls data o).2.splitSuffix = o.splitSuffix := by
  have hkeys : "splitSuffix" ∉ assocKeys (assocErase data (cls.mappingOf o).keyName) :=
    fun hmem => hdata (mem_assocKeys_erase.mp hmem).1
  unfold Obj.splitSuffix saved
  rw [cls.get_assignEach hkeys]

theorem mappingOf_saved {data : List (String × Val V)} (hdata : "splitSuffix" ∉ assocKeys data)
    (o : Obj V) : cls.mappingOf (saved cls data o).2 = cls.mappingOf o := by
  rw [ModelClass.mappingOf, splitSuffix_saved hdata]
  rfl

/-- The key is never among what `save` assigns. -/
theorem get_saved_key (data : List (String × Val V)) (o : Obj V) :
    (saved cls data o).2.get (cls.mappingOf o).keyName = o.get (cls.mappingOf o).keyName := by
  exact cls.get_assignEach (fun hmem => (mem_assocKeys_erase.mp hmem).2 rfl) o

/-- What is saved is an object of the same table and with the same key. -/
theorem key_saved {data : List (String × Val V)} (hdata : "splitSuffix" ∉ assocKeys data) (o : Obj V) :
    (saved cls data o).2.get (cls.mappingOf (saved cls data o).2).keyName =
      o.get (cls.mappingOf o).keyName := by
  rw [mappingOf_saved hdata, get_saved_key]

/-- `save` up to the test for null, with what follows on the tested value and on an
    object that is not loaded. -/
def saving {α : Type} (cls : ModelClass V) (data : List (String × Val V)) (loaded : Val V → ObjM V α)
    (other : ObjM V α) : ObjM V α := do
  let s ← Method.get
  let key := (cls.mappingOf s.this).keyName
  let data := assocErase data key
  let (r, o) := cls.assignEach data s.this
  Method.modify fun s => { s with this := o }
  Method.lift r
  let s ← Method.get
  if s.this.isLoaded then
    let value ← Method.lift (cls.read s.this ((data.getLast?.map Prod.fst).getD key))
    loaded value
  else other

theorem tree_saving {α : Type} (data : List (String × Val V)) (loaded : Val V → ObjM V α)
    (other : ObjM V α) (s : ObjSelf V) :
    tree (saving cls data loaded other) s =
      andThen
        (fun _ =>
          if (saved cls data s.this).2.isLoaded then
            Method.lift (cls.read (saved cls data s.this).2 (tested cls data s.this)) >>= loaded
          else other)
        ((saved cls data s.this).1, { s with this := (saved cls data s.this).2 }) := by
  simp only [saving, tree_bind, tree_get, Prog.bind_ret, andThen_ok, tree_modify, tree_lift]
  show andThen _ ((saved cls data s.this).1, ({ s with this := (saved cls data s.this).2 } : ObjSelf V)) =
    _
  cases (saved cls data s.this).1 with
  | error e => rfl
  | ok u => rfl

theorem save_eq (cls : ModelClass V) (data : List (String × Val V)) :
    save cls data =
      saving cls data (fun value => if value.isNone then insert cls else update cls) (insert cls) := rfl

/-- `save` assigns its data, then inserts or updates. -/
theorem tree_save {E : Engine V} {s : ObjSelf V} (hst : cls.Stored E s.this.splitSuffix)
    {data : List (String × Val V)} (hdata : "splitSuffix" ∉ assocKeys data) :
    tree (save cls data) s =
      match (saved cls data s.this).1 with
      | .error e => .ret (.error e, { s with this := (saved cls data s.this).2 })
      | .ok _ =>
        if inserts cls data s.this then
          tree (insert cls) { s with this := (saved cls data s.this).2 }
        else tree (update cls) { s with this := (saved cls data s.this).2 } := by
  rw [save_eq, tree_saving]
  cases hok : (saved cls data s.this).1 with
  | error e => rfl
  | ok u =>
    -- what is tested is there: it was assigned, or is the key
    have hread : cls.read (saved cls data s.this).2 (tested cls data s.this) =
        .ok ((saved cls data s.this).2.get (tested cls data s.this)) := by
      refine if_pos ?_
      unfold tested
      cases hlast : (assocErase data (cls.mappingOf s.this).keyName).getLast? with
      | none =>
        right
        rw [ModelClass.mappingOf, splitSuffix_saved hdata]
        exact hst.key_mem
      | some d =>
        left
        have hmem := List.mem_of_getLast? hlast
        exact keys_assignEach hok (.inl (List.mem_map_of_mem hmem))
    rw [andThen_ok, tree_ite, tree_bind, tree_lift, hread, Prog.bind_ret, andThen_ok, tree_ite, inserts]
    cases (saved cls data s.this).2.isLoaded <;> rfl

end DataObject

end

end RubbishStore.Pdo
