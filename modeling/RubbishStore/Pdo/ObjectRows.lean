import RubbishStore.Pdo.ObjectSteps

/- What the statements of an object do to the rows of its class. The properties
   that are not null are written, so the row after an update or an insert shows
   the object exactly when they are stored as they are and the null ones are
   null in the row already, or by default (`shows_written_iff`,
   `shows_newRow_iff`). -/
namespace RubbishStore.Pdo
open RubbishStore.Lib

section
variable {V : Type}

/-! Cached objects. -/

namespace World
variable {E : Engine V}

/-- With an object in the cache. -/
def put (w : World E) (cls : ModelClass V) (id : V) (o : Obj V) : World E :=
  { w with cache := assocSet w.cache (cls.getObjKey (some id)) o }

/-- With no object of the key in the cache. -/
def drop (w : World E) (cls : ModelClass V) (id : V) : World E :=
  { w with cache := assocErase w.cache (cls.getObjKey (some id)) }

section
variable {cls : ModelClass V} {suffix : String} (w : World E) (id : V) (o : Obj V)

@[simp] theorem rowOf_put [DecidableEq V] (id' : V) :
    (w.put cls id o).rowOf cls suffix id' = w.rowOf cls suffix id' := rfl

@[simp] theorem rowOf_drop [DecidableEq V] (id' : V) :
    (w.drop cls id).rowOf cls suffix id' = w.rowOf cls suffix id' := rfl

@[simp] theorem cached_put_self : (w.put cls id o).cached cls id = some o := lookup_set_self _ _ _

@[simp] theorem cached_drop_self : (w.drop cls id).cached cls id = none := by
  rw [cached, drop, lookup_erase, if_pos rfl]

theorem cached_put_ne (hst : cls.Stored E suffix) {id' : V} (hne : id' ≠ id) :
    (w.put cls id o).cached cls id' = w.cached cls id' := by
  have hkey : ¬cls.getObjKey (some id) = cls.getObjKey (some id') :=
    fun h => hne (hst.getObjKey id id' h).symm
  rw [cached, put, lookup_set, if_neg hkey]
  rfl

theorem cached_drop_ne (hst : cls.Stored E suffix) {id' : V} (hne : id' ≠ id) :
    (w.drop cls id).cached cls id' = w.cached cls id' := by
  have hkey : ¬cls.getObjKey (some id) = cls.getObjKey (some id') :=
    fun h => hne (hst.getObjKey id id' h).symm
  rw [cached, drop, lookup_erase, if_neg hkey]
  rfl

end

end World

/-! The values a write sends. -/

namespace DataObject
variable [PhpScalar V] {cls : ModelClass V} {E : Engine V} {o : Obj V}

theorem lookup_written (p : String) :
    (written cls o).lookup p =
      if p ∈ (cls.mappingOf o).properties then (o.get p).map some else none := by
  have hfold : ∀ (f : List (String × Val V) → String → List (String × Val V)),
      (∀ sets q, o.get q = none → f sets q = sets) →
      (∀ sets q v, o.get q = some v → f sets q = assocSet sets q (some v)) →
      ∀ (ps : List String) (acc : List (String × Val V)), (ps.foldl f acc).lookup p =
        if p ∈ ps ∧ o.get p ≠ none then (o.get p).map some else acc.lookup p := by
    intro f hnone hsome ps
    induction ps with
    | nil => simp
    | cons q ps ih =>
      intro acc
      rw [List.foldl_cons, ih]
      cases hq : o.get q with
      | none =>
        rw [hnone acc q hq]
        by_cases hpq : p = q
        · subst hpq
          simp [hq]
        · simp [hpq]
      | some v =>
        rw [hsome acc q v hq, lookup_set]
        by_cases hpq : q = p
        · subst hpq
          simp [hq]
        · have hpq' : ¬p = q := fun e => hpq e.symm
          simp [hpq, hpq']
  rw [written, hfold _ (fun sets q hq => by simp only [hq]) (fun sets q v hq => by simp only [hq])]
  by_cases hp : p ∈ (cls.mappingOf o).properties
  · cases o.get p <;> simp [hp]
  · simp [hp]

theorem keys_written {p : String × Val V} (hp : p ∈ written cls o) :
    p.1 ∈ (cls.mappingOf o).properties := by
  by_contra hnot
  have hlookup : (written cls o).lookup p.1 = none := by
    rw [lookup_written, if_neg hnot]
  exact lookup_eq_none_keys.mp hlookup (List.mem_map_of_mem hp)

/-- The assignments of a write, by column. -/
def sets (cls : ModelClass V) (o : Obj V) : List (String × Val V) :=
  (written cls o).map fun p => ((cls.mappingOf o).toDb p.1, p.2)

/-- What the column of a property is set to: its value, if it is not null. -/
theorem lookup_sets (hst : cls.Stored E o.splitSuffix) {p : String}
    (hp : p ∈ (cls.mappingOf o).properties) :
    (sets cls o).lookup ((cls.mappingOf o).toDb p) = (o.get p).map some := by
  have hinj : ∀ q ∈ written cls o, (cls.mappingOf o).toDb q.1 = (cls.mappingOf o).toDb p → q.1 = p :=
    fun q hq h => hst.toDb_inj (keys_written hq) hp h
  rw [sets, lookup_map_fst hinj, lookup_written, if_pos hp]

/-! Rows that show the object. -/

/-- A column that is set to the value, or is `otherwise` where the value is null,
    ends up with the value. -/
def Kept (store : V → V) (otherwise : Val V) : Val V → Prop
  | some v => store v = v
  | none => otherwise = none

instance [DecidableEq V] {store : V → V} {otherwise : Val V} : DecidablePred (Kept store otherwise)
  | some v => inferInstanceAs (Decidable (store v = v))
  | none => inferInstanceAs (Decidable (otherwise = none))

/-- Every property that is not null is stored as it is; every null one is null in
    the row. -/
def KeptIn (cls : ModelClass V) (E : Engine V) (o : Obj V) (r : FetchRow V) : Prop :=
  ∀ p ∈ (cls.mappingOf o).properties,
    Kept (E.store (cls.mappingOf o).table ((cls.mappingOf o).toDb p)) (cell ((cls.mappingOf o).toDb p) r)
      (o.get p)

/-- The key aside, every property that is not null is stored as it is; every null
    one is null by default. -/
def KeptNew (cls : ModelClass V) (E : Engine V) (o : Obj V) : Prop :=
  ∀ p ∈ (cls.mappingOf o).properties, p ≠ (cls.mappingOf o).keyName →
    Kept (E.store (cls.mappingOf o).table ((cls.mappingOf o).toDb p))
      (E.defaults (cls.mappingOf o).table ((cls.mappingOf o).toDb p)) (o.get p)

instance [DecidableEq V] {r : FetchRow V} : Decidable (KeptIn cls E o r) := by
  unfold KeptIn
  infer_instance

instance [DecidableEq V] : Decidable (KeptNew cls E o) := by
  unfold KeptNew
  infer_instance

/-- The column of a property after the update. -/
theorem cell_updated (hst : cls.Stored E o.splitSuffix) {r : FetchRow V}
    (hr : assocKeys r = E.columns (cls.mappingOf o).table) {p : String}
    (hp : p ∈ (cls.mappingOf o).properties) :
    cell ((cls.mappingOf o).toDb p) (E.written (cls.mappingOf o).table (sets cls o) r) =
      match o.get p with
      | some v => some (E.store (cls.mappingOf o).table ((cls.mappingOf o).toDb p) v)
      | none => cell ((cls.mappingOf o).toDb p) r := by
  have hmem : (cls.mappingOf o).toDb p ∈ assocKeys r := by
    rw [hr]
    exact hst.toDb_mem hp
  rw [Engine.cell_written hmem, lookup_sets hst hp]
  cases o.get p <;> rfl

/-- The row after an update shows the object exactly when its values are kept. -/
theorem shows_written_iff (hst : cls.Stored E o.splitSuffix) {r : FetchRow V}
    (hr : assocKeys r = E.columns (cls.mappingOf o).table) :
    cls.Shows o.splitSuffix o (E.written (cls.mappingOf o).table (sets cls o) r) ↔ KeptIn cls E o r := by
  refine forall₂_congr fun p hp => ?_
  show o.get p = cell ((cls.mappingOf o).toDb p) _ ↔ _
  rw [cell_updated hst hr hp]
  cases o.get p with
  | some v =>
    rw [Option.some.injEq]
    exact eq_comm
  | none => exact eq_comm

/-- The row of an insert shows the object, with the new key, exactly when its
    values are kept. -/
theorem shows_newRow_iff (hst : cls.Stored E o.splitSuffix) {rows : List (FetchRow V)} {id : V}
    (hid : cell (E.keyColumn (cls.mappingOf o).table)
      (E.newRow (cls.mappingOf o).table rows (sets cls o)) = some id) :
    cls.Shows o.splitSuffix (inserted cls o (some id))
        (E.newRow (cls.mappingOf o).table rows (sets cls o)) ↔ KeptNew cls E o := by
  refine forall₂_congr fun p hp => ?_
  have hloaded : "isLoaded" ≠ p := fun h => hst.isLoaded_not_mem (h ▸ hp)
  have hget : (inserted cls o (some id)).get p =
      if (cls.mappingOf o).keyName = p then some id else o.get p := by
    rw [inserted, Obj.get_set_ne _ _ hloaded, Obj.get_set]
  show (inserted cls o (some id)).get p = cell ((cls.mappingOf o).toDb p) _ ↔ _
  rw [hget]
  by_cases hkey : (cls.mappingOf o).keyName = p
  · subst hkey
    have hcolumn : (cls.mappingOf o).toDb (cls.mappingOf o).keyName =
        E.keyColumn (cls.mappingOf o).table := hst.keyColumn.symm
    rw [if_pos rfl, hcolumn, hid]
    simp
  · have hcolumn : ¬(cls.mappingOf o).toDb p = E.keyColumn (cls.mappingOf o).table := by
      intro h
      exact hkey (hst.toDb_inj hst.key_mem hp (hst.keyColumn.symm.trans h.symm))
    have hkey' : p ≠ (cls.mappingOf o).keyName := fun h => hkey h.symm
    have hmem : (cls.mappingOf o).toDb p ∈ E.columns (cls.mappingOf o).table := hst.toDb_mem hp
    rw [if_neg hkey, Engine.cell_newRow hmem, lookup_sets hst hp]
    cases o.get p with
    | some v => simp [Kept, hkey', eq_comm]
    | none => simp [Kept, hkey', hcolumn, eq_comm]

/-! The statements. -/

/-- The update of the object's own row. -/
def updateStmt (cls : ModelClass V) (o : Obj V) : Stmt V where
  verb := .update
  table := (cls.mappingOf o).table
  sets := sets cls o
  conds := [⟨(cls.mappingOf o).toDb (cls.mappingOf o).keyName, "=",
    .scalar (o.get (cls.mappingOf o).keyName)⟩]

theorem stmt_updater (o : Obj V) : (updater cls o).stmt .update = updateStmt cls o := by
  rw [updater, writer_eq]
  rfl

theorem stmt_deleter (o : Obj V) :
    (deleter cls o).stmt .delete =
      { verb := .delete
        table := (cls.mappingOf o).table
        conds := [⟨(cls.mappingOf o).toDb (cls.mappingOf o).keyName, "=",
          .scalar (o.get (cls.mappingOf o).keyName)⟩] } := rfl

theorem stmt_writer (o : Obj V) :
    (writer cls o).stmt (.insert "insert") =
      { verb := .insert "insert"
        table := (cls.mappingOf o).table
        sets := sets cls o } := by
  rw [writer_eq]
  rfl

theorem pdoValues_writer (o : Obj V) : (writer cls o).pdoValues = [] := by
  rw [writer_eq]
  rfl

variable [DecidableEq V] {w : World E} {id : V}

omit [DecidableEq V] in
/-- Update and delete are statements on the object's key. -/
theorem onKey_update (hst : cls.Stored E o.splitSuffix)
    (hid : o.get (cls.mappingOf o).keyName = some id) :
    (updateStmt cls o).OnKey (E.keyColumn (updateStmt cls o).table) id where
  conds := by
    have hcolumn : E.keyColumn (cls.mappingOf o).table =
        (cls.mappingOf o).toDb (cls.mappingOf o).keyName := hst.keyColumn
    simp only [updateStmt, hcolumn, hid]
  userWhere := rfl

omit [DecidableEq V] in
theorem onKey_deleter (hst : cls.Stored E o.splitSuffix)
    (hid : o.get (cls.mappingOf o).keyName = some id) :
    ((deleter cls o).stmt .delete).OnKey (E.keyColumn (cls.mappingOf o).table) id where
  conds := by
    have hcolumn : E.keyColumn (cls.mappingOf o).table =
        (cls.mappingOf o).toDb (cls.mappingOf o).keyName := hst.keyColumn
    rw [stmt_deleter, hcolumn, hid]
  userWhere := rfl

omit [DecidableEq V] in
/-- The key of a row after the update. -/
theorem key_updated (hst : cls.Stored E o.splitSuffix)
    (hid : o.get (cls.mappingOf o).keyName = some id) {r : FetchRow V}
    (hr : assocKeys r = E.columns (cls.mappingOf o).table) :
    cell (E.keyColumn (cls.mappingOf o).table) (E.written (cls.mappingOf o).table (sets cls o) r) =
      some (E.store (cls.mappingOf o).table ((cls.mappingOf o).toDb (cls.mappingOf o).keyName) id) := by
  have hcolumn : E.keyColumn (cls.mappingOf o).table =
      (cls.mappingOf o).toDb (cls.mappingOf o).keyName := hst.keyColumn
  have hmem : (cls.mappingOf o).keyName ∈ (cls.mappingOf o).properties := hst.key_mem
  rw [hcolumn, cell_updated hst hr hmem, hid]

/-- An update whose key is stored as it is goes through, and writes the row of
    the key, if there is one. -/
theorem execute_updater (hst : cls.Stored E o.splitSuffix)
    (hid : o.get (cls.mappingOf o).keyName = some id)
    (hkey : w.rowOf cls o.splitSuffix id ≠ none → E.store (cls.mappingOf o).table
      ((cls.mappingOf o).toDb (cls.mappingOf o).keyName) id = id) :
    ∃ n w', E.execute w ((updater cls o).stmt .update) = (.ok { rowCount := n }, w') ∧
      w'.cache = w.cache ∧
      ∀ id', w'.rowOf cls o.splitSuffix id' =
        if id' = id then
          (w.rowOf cls o.splitSuffix id).map (E.written (cls.mappingOf o).table (sets cls o))
        else w.rowOf cls o.splitSuffix id' := by
  have hstays : ∀ r, (w.table (updateStmt cls o).table).row id = some r →
      cell (E.keyColumn (updateStmt cls o).table)
        (E.written (updateStmt cls o).table (updateStmt cls o).sets r) = some id := by
    intro r hr
    refine (key_updated hst hid (Table.assocKeys_of_row hr)).trans (congrArg some (hkey ?_))
    intro hnone
    exact Option.some_ne_none r (hr.symm.trans hnone)
  obtain ⟨n, t, hupdate, hrows⟩ := Engine.update_ok (onKey_update hst hid) hstays
  refine ⟨n, w.setTable _ t, by rw [stmt_updater]; exact hupdate, rfl, fun id' => ?_⟩
  refine Eq.trans ?_ (hrows id')
  exact congrArg (fun t => Table.row t id') World.table_setTable

/-- One that changes the key leaves no row at the old one. -/
theorem execute_updater_moved (hst : cls.Stored E o.splitSuffix)
    (hid : o.get (cls.mappingOf o).keyName = some id)
    (hkey : E.store (cls.mappingOf o).table
      ((cls.mappingOf o).toDb (cls.mappingOf o).keyName) id ≠ id)
    {f : Fetched V} {w' : World E}
    (h : E.execute w ((updater cls o).stmt .update) = (.ok f, w')) :
    w'.rowOf cls o.splitSuffix id = none ∧ w'.cache = w.cache := by
  have hmoves : ∀ r, (w.table (updateStmt cls o).table).row id = some r →
      cell (E.keyColumn (updateStmt cls o).table)
        (E.written (updateStmt cls o).table (updateStmt cls o).sets r) ≠ some id := by
    intro r hr heq
    have hsame := (key_updated hst hid (Table.assocKeys_of_row hr)).symm.trans heq
    exact hkey (Option.some.inj hsame)
  rw [stmt_updater] at h
  exact Engine.row_update_moved (onKey_update hst hid) hmoves h

/-- A delete removes the row of the key. -/
theorem execute_deleter (hst : cls.Stored E o.splitSuffix)
    (hid : o.get (cls.mappingOf o).keyName = some id) (w : World E) :
    ∃ n w', E.execute w ((deleter cls o).stmt .delete) = (.ok { rowCount := n }, w') ∧
      w'.cache = w.cache ∧
      ∀ id', w'.rowOf cls o.splitSuffix id' =
        if id' = id then none else w.rowOf cls o.splitSuffix id' := by
  obtain ⟨n, t, hdelete, hrows⟩ := Engine.delete_onKey (w := w) (onKey_deleter hst hid) rfl
  refine ⟨n, w.setTable _ t, hdelete, rfl, fun id' => ?_⟩
  refine Eq.trans ?_ (hrows id')
  exact congrArg (fun t => Table.row t id') World.table_setTable

/-- An insert that went through added the row of its key, which was free. -/
theorem execute_writer {f : Fetched V} {w' : World E}
    (h : E.execute w ((writer cls o).stmt (.insert "insert")) = (.ok f, w')) :
    ∃ id, w'.lastId = some id ∧ w'.cache = w.cache ∧
      cell (E.keyColumn (cls.mappingOf o).table)
        (E.newRow (cls.mappingOf o).table (w.table (cls.mappingOf o).table).rows (sets cls o)) = some id ∧
      w.rowOf cls o.splitSuffix id = none ∧
      ∀ id', w'.rowOf cls o.splitSuffix id' =
        if id' = id then
          some (E.newRow (cls.mappingOf o).table (w.table (cls.mappingOf o).table).rows (sets cls o))
        else w.rowOf cls o.splitSuffix id' := by
  rw [stmt_writer] at h
  exact Engine.row_insert h

end DataObject

end

end RubbishStore.Pdo
