import RubbishStore.Lib.Runs
import RubbishStore.Pdo.FindByPks
import RubbishStore.Pdo.ObjectRows

/- The row cache over whole runs. It is coherent when every cached object shows
   the row of its key. A delete and the find calls keep it coherent. An insert
   and an update cache `$this`, which shows the row only where the row takes the
   object's values as they are: `coherent_insert_iff` and `coherent_update_iff`
   say exactly when, and a run of operations that meet these conditions is
   coherent throughout (`run_coherent`). -/
namespace RubbishStore.Pdo
open RubbishStore.Lib
open Method

section
variable {V : Type} [DecidableEq V] {E : Engine V}

namespace World

/-- A cached object of the key shows the row of the key. -/
def CoherentAt (w : World E) (cls : ModelClass V) (suffix : String) (id : V) : Prop :=
  ∀ o, w.cached cls id = some o → ∃ r, w.rowOf cls suffix id = some r ∧ cls.Shows suffix o r

def Coherent (w : World E) (cls : ModelClass V) (suffix : String) : Prop :=
  ∀ id, w.CoherentAt cls suffix id

section
variable {cls : ModelClass V} {suffix : String} {w w' : World E} {id : V}

instance : Decidable (w.CoherentAt cls suffix id) :=
  match hcached : w.cached cls id with
  | none => isTrue fun o ho => by rw [hcached] at ho; cases ho
  | some o =>
    match hrow : w.rowOf cls suffix id with
    | none => isFalse fun h => by
      obtain ⟨r, hr, -⟩ := h o hcached
      rw [hrow] at hr
      cases hr
    | some r =>
      decidable_of_iff (∀ p ∈ (cls.getMapping suffix).properties,
          o.get p = cell ((cls.getMapping suffix).toDb p) r) <| by
        constructor
        · intro h o' ho'
          rw [hcached] at ho'
          cases ho'
          exact ⟨r, hrow, h⟩
        · intro h
          obtain ⟨r', hr', hshows⟩ := h o hcached
          rw [hrow] at hr'
          cases hr'
          exact hshows

/-- Only the key's own row and cached object matter. -/
theorem coherentAt_congr (hcached : w'.cached cls id = w.cached cls id)
    (hrow : w'.rowOf cls suffix id = w.rowOf cls suffix id) :
    w'.CoherentAt cls suffix id ↔ w.CoherentAt cls suffix id := by
  unfold CoherentAt
  rw [hcached, hrow]

theorem coherentAt_of_none (h : w.cached cls id = none) : w.CoherentAt cls suffix id := by
  intro o ho
  rw [h] at ho
  cases ho

theorem coherentAt_some {o : Obj V} (h : w.cached cls id = some o) :
    w.CoherentAt cls suffix id ↔ ∃ r, w.rowOf cls suffix id = some r ∧ cls.Shows suffix o r := by
  constructor
  · exact fun hcoh => hcoh o h
  · intro hrow o' ho'
    rw [h] at ho'
    cases ho'
    exact hrow

/-- Where one key at most has changed, coherence is coherence at that key. -/
theorem coherent_iff_at (hcoh : w.Coherent cls suffix)
    (hcached : ∀ id', id' ≠ id → w'.cached cls id' = w.cached cls id')
    (hrow : ∀ id', id' ≠ id → w'.rowOf cls suffix id' = w.rowOf cls suffix id') :
    w'.Coherent cls suffix ↔ w'.CoherentAt cls suffix id := by
  constructor
  · exact fun h => h id
  · intro h id'
    by_cases hid : id' = id
    · rw [hid]
      exact h
    · exact (coherentAt_congr (hcached id' hid) (hrow id' hid)).mpr (hcoh id')

/-- Caching an object that shows its row. -/
theorem Coherent.put (hst : cls.Stored E suffix) (hcoh : w.Coherent cls suffix) {o : Obj V}
    {r : FetchRow V} (hrow : w.rowOf cls suffix id = some r) (hshows : cls.Shows suffix o r) :
    (w.put cls id o).Coherent cls suffix := by
  have hcached : ∀ id', id' ≠ id → (w.put cls id o).cached cls id' = w.cached cls id' :=
    fun id' hid => w.cached_put_ne id o hst hid
  refine (coherent_iff_at hcoh hcached fun id' _ => rfl).mpr ?_
  exact (coherentAt_some (w.cached_put_self id o)).mpr ⟨r, hrow, hshows⟩

end

end World

variable [PhpScalar V] {cls : ModelClass V} {suffix : String}

/-! The find calls. -/

namespace MysqlAccessor

/-- The statement of `find_by_pk` fetches the row of the key. -/
theorem execute_lookingFor (hst : cls.Stored E suffix) (st : Statics) (id : V) (w : World E) :
    ∃ n, E.execute w ((lookingFor ⟨Accessor.fresh cls suffix, st⟩ id).this.stmt .findAll) =
      (.ok { rows := (w.rowOf cls suffix id).toList, rowCount := n }, w) := by
  let s : Stmt V := (lookingFor ⟨Accessor.fresh cls suffix, st⟩ id).this.stmt .findAll
  have hon : s.OnKey (E.keyColumn s.table) id := by
    have hconds : s.conds = [⟨E.keyColumn (cls.getMapping suffix).table, "=", .scalar (some id)⟩] := by
      rw [hst.keyColumn]
      rfl
    exact ⟨hconds, rfl⟩
  have hselect : E.select w s [] false = (w.rowOf cls suffix id).toList :=
    Engine.select_onKey hon (.inr rfl)
  refine ⟨(E.select w s [] false).length, ?_⟩
  rw [← hselect]
  rfl

/-- What `find_by_pk` does to the world after a miss: it caches the object of the
    row. -/
theorem world_loadByPk (hst : cls.Stored E suffix) {st : Statics} {obj : Obj V}
    (hc : cls.construct st.splitSuffix = .ok obj) (id : V) (throwException : Bool) (w : World E) :
    ((tree (loadByPk id throwException) ⟨Accessor.fresh cls suffix, st⟩).run E.answer w).2 =
      match w.rowOf cls suffix id with
      | some r =>
        if cls.cacheEnable then w.put cls id ((Accessor.fresh cls suffix).fill obj r) else w
      | none => w := by
  obtain ⟨n, hexecute⟩ := execute_lookingFor hst st id w
  rw [tree_loadByPk hc, run_sends_answer rfl, hexecute]
  cases hrow : w.rowOf cls suffix id with
  | none => cases throwException <;> rfl
  | some r =>
    have hkey : ((Accessor.fresh cls suffix).fill obj r).get (cls.getMapping suffix).keyName = some id := by
      rw [hst.shows_key (hst.shows_fill rfl obj r)]
      exact (Table.row_eq_some.mp hrow).2
    show (Prog.run _ (if cls.cacheEnable then attempt (Eff.cacheSet (cls.getObjKey
      (((Accessor.fresh cls suffix).fill obj r).get (cls.getMapping suffix).keyName)) _ _) _ _ else _) w).2 = _
    rw [hkey]
    cases cls.cacheEnable <;> rfl

/-- `find_by_pk` keeps the cache coherent. -/
theorem coherent_findByPk (hst : cls.Stored E suffix) {st : Statics} {obj : Obj V}
    (hc : cls.construct st.splitSuffix = .ok obj) (id : V) (throwException : Bool) {w : World E}
    (hcoh : w.Coherent cls suffix) :
    (exec E.answer (findByPk id throwException) ⟨Accessor.fresh cls suffix, st⟩ w).2.2.Coherent cls
      suffix := by
  have hload : ((tree (loadByPk id throwException) ⟨Accessor.fresh cls suffix, st⟩).run E.answer
      w).2.Coherent cls suffix := by
    rw [world_loadByPk hst hc]
    cases hrow : w.rowOf cls suffix id with
    | none => exact hcoh
    | some r =>
      simp only
      split
      · exact hcoh.put hst hrow (hst.shows_fill rfl obj r)
      · exact hcoh
  show ((tree (findByPk id throwException) ⟨Accessor.fresh cls suffix, st⟩).run E.answer w).2.Coherent
    cls suffix
  rw [tree_findByPk]
  split
  · rw [run_attempt]
    simp only [Engine.answer]
    cases List.lookup ((Accessor.fresh cls suffix).model.getObjKey (some id)) w.cache with
    | some o => exact hcoh
    | none => exact hload
  · exact hload

omit [PhpScalar V] in
/-- Caching objects one after another, each the object of its row. -/
theorem coherent_storeEach (hst : cls.Stored E suffix) {objs : List (Obj V)} {w : World E}
    (hcoh : w.Coherent cls suffix)
    (hobjs : ∀ o ∈ objs, ∃ id r, o.get (cls.getMapping suffix).keyName = some id ∧
      w.rowOf cls suffix id = some r ∧ cls.Shows suffix o r) :
    ({ w with cache := storeEach cls (cls.getMapping suffix).keyName objs w.cache } : World E).Coherent
      cls suffix := by
  induction objs generalizing w with
  | nil => exact hcoh
  | cons o objs ih =>
    obtain ⟨id, r, hget, hrow, hshows⟩ := hobjs o List.mem_cons_self
    have hput : (w.put cls id o).Coherent cls suffix := hcoh.put hst hrow hshows
    have htail := ih hput fun o' ho' => hobjs o' (List.mem_cons_of_mem o ho')
    rw [storeEach, List.foldl_cons, hget]
    exact htail

/-- The objects read from the table show their rows. -/
theorem loadedBy_shows (hst : cls.Stored E suffix) {st : Statics} {obj : Obj V} {w : World E}
    {ids : List V} {o : Obj V} (ho : o ∈ loadedBy ⟨Accessor.fresh cls suffix, st⟩ obj w ids) :
    ∃ id r, o.get (cls.getMapping suffix).keyName = some id ∧ w.rowOf cls suffix id = some r ∧
      cls.Shows suffix o r := by
  obtain ⟨r, hr, rfl⟩ := List.mem_map.mp ho
  have hshows := hst.shows_fill (a := Accessor.fresh cls suffix) rfl obj r
  have hmatching : r ∈ E.matching w (keysStmt ⟨Accessor.fresh cls suffix, st⟩ ids) := by
    change r ∈ (E.matching w _).map id at hr
    rwa [List.map_id] at hr
  have hmem : r ∈ (w.table (cls.getMapping suffix).table).rows :=
    (List.mem_filter.mp ((Engine.matching_perm w _).mem_iff.mp hmatching)).1
  obtain ⟨id, hid⟩ := Option.ne_none_iff_exists'.mp ((w.table (cls.getMapping suffix).table).keyed r hmem)
  exact ⟨id, r, (hst.shows_key hshows).trans hid, Table.row_eq_some.mpr ⟨hmem, hid⟩, hshows⟩

theorem coherent_findByPks (hst : cls.Stored E suffix) {st : Statics} {obj : Obj V}
    (hc : cls.construct st.splitSuffix = .ok obj) (ids : List V) {w : World E}
    (hcoh : w.Coherent cls suffix) :
    (exec E.answer (findByPks ids) ⟨Accessor.fresh cls suffix, st⟩ w).2.2.Coherent cls suffix := by
  have hload : ∀ memObjs : List (Obj V),
      (exec E.answer (loadByPks ids memObjs) ⟨Accessor.fresh cls suffix, st⟩ w).2.2.Coherent cls
        suffix := by
    intro memObjs
    by_cases hmissing : missing (cls.getMapping suffix).keyName ids memObjs = []
    · rw [exec_loadByPks_nil hmissing]
      exact hcoh
    · obtain ⟨s', hexec⟩ := exec_loadByPks hc hmissing w
      rw [hexec]
      simp only
      split
      · exact coherent_storeEach hst hcoh fun o ho => loadedBy_shows hst ho
      · exact hcoh
  rw [exec_findByPks]
  split
  · split
    · exact hcoh
    · exact hload _
  · exact hload _

end MysqlAccessor

/-! The writes. -/

namespace DataObject

/-- What went through, and the world after it. -/
def Through {σ α : Type} (r : (Except PhpException α × σ) × World E) (w' : World E) : Prop :=
  (∃ a, r.1.1 = .ok a) ∧ r.2 = w'

section
variable {s : ObjSelf V} {w w' : World E} {id : V}

omit [DecidableEq V] in
theorem key_ne_none (hst : cls.Stored E s.this.splitSuffix) : (cls.mappingOf s.this).key ≠ none := by
  rw [ModelClass.mappingOf, hst.key]
  exact Option.some_ne_none _

omit [PhpScalar V] in
/-- A statement that went through. -/
theorem through_sends [PhpScalar V] {β : Type} {t : Self V} (ht : t.this.pdoValues = [])
    {terminal : Terminal} {u u' : ObjSelf V} {k : Fetched V → Steps V (ObjSelf V) β}
    (h : Through ((sends t terminal u u' k).run E.answer w) w') :
    ∃ f w₁, E.execute w (t.this.stmt terminal) = (.ok f, w₁) ∧ Through ((k f).run E.answer w₁) w' := by
  rw [run_sends_answer ht] at h
  cases hexecute : E.execute w (t.this.stmt terminal) with
  | mk r w₁ =>
    rw [hexecute] at h
    cases r with
    | ok f => exact ⟨f, w₁, rfl, h⟩
    | error err =>
      obtain ⟨⟨a, ha⟩, -⟩ := h
      cases ha

/-- An update that went through leaves the cache coherent exactly when it found its
    row and the row takes the object's values as they are. -/
theorem coherent_update_iff (hst : cls.Stored E s.this.splitSuffix) (hcache : cls.cacheEnable = true)
    (hid : s.this.get (cls.mappingOf s.this).keyName = some id)
    (hcoh : w.Coherent cls s.this.splitSuffix) (h : Through ((tree (update cls) s).run E.answer w) w') :
    w'.Coherent cls s.this.splitSuffix ↔
      ∃ r, w.rowOf cls s.this.splitSuffix id = some r ∧ KeptIn cls E s.this r := by
  have hupdater : (updater cls s.this).pdoValues = [] := pdoValues_writer s.this
  rw [tree_update (key_ne_none hst) hid, if_pos hcache, run_attempt] at h
  change Through ((sendsOwn s (updater cls s.this) .update).run E.answer (w.put cls id s.this)) w' at h
  obtain ⟨f, w₁, hexecute, -, hw'⟩ := through_sends hupdater h
  change w₁ = w' at hw'
  subst hw'
  -- the object under its key, and the other keys as they were
  have hput : ∀ id', id' ≠ id → (w.put cls id s.this).cached cls id' = w.cached cls id' :=
    fun id' hne => w.cached_put_ne id s.this hst hne
  by_cases hkey : w.rowOf cls s.this.splitSuffix id ≠ none → E.store (cls.mappingOf s.this).table
      ((cls.mappingOf s.this).toDb (cls.mappingOf s.this).keyName) id = id
  · obtain ⟨n, w₂, hexecute', hcached, hrows⟩ := execute_updater (w := w.put cls id s.this) hst hid hkey
    rw [hexecute] at hexecute'
    cases hexecute'
    have hcached' : ∀ id', w₁.cached cls id' = (w.put cls id s.this).cached cls id' := by
      intro id'
      rw [World.cached, hcached]
      rfl
    rw [World.coherent_iff_at hcoh (fun id' hne => (hcached' id').trans (hput id' hne))
      (fun id' hne => (hrows id').trans (if_neg hne)),
      World.coherentAt_some ((hcached' id).trans (w.cached_put_self id s.this)), hrows, if_pos rfl,
      World.rowOf_put]
    refine ⟨fun hx => ?_, fun hx => ?_⟩
    · obtain ⟨r', hr', hshows⟩ := hx
      obtain ⟨r, hr, rfl⟩ := Option.map_eq_some_iff.mp hr'
      exact ⟨r, hr, (shows_written_iff hst (Table.assocKeys_of_row hr)).mp hshows⟩
    · obtain ⟨r, hr, hkept⟩ := hx
      refine ⟨_, by rw [hr]; rfl, (shows_written_iff hst (Table.assocKeys_of_row hr)).mpr hkept⟩
  · -- the statement changes the key: the cached object has no row
    have hmoved : E.store (cls.mappingOf s.this).table
        ((cls.mappingOf s.this).toDb (cls.mappingOf s.this).keyName) id ≠ id :=
      fun h => hkey fun _ => h
    obtain ⟨hnone, hcached⟩ := execute_updater_moved hst hid hmoved hexecute
    have hput' : w₁.cached cls id = some s.this := by
      rw [World.cached, hcached]
      exact w.cached_put_self id s.this
    refine ⟨fun h => ?_, fun hx => ?_⟩
    · obtain ⟨r, hr, -⟩ := h id _ hput'
      rw [hnone] at hr
      cases hr
    · obtain ⟨r, hr, hkept⟩ := hx
      have hkeptKey := hkept _ hst.key_mem
      change Kept _ _ (s.this.get (cls.mappingOf s.this).keyName) at hkeptKey
      rw [hid] at hkeptKey
      exact absurd hkeptKey hmoved

/-- A delete that went through leaves the cache coherent. -/
theorem coherent_delete (hst : cls.Stored E s.this.splitSuffix) (hcache : cls.cacheEnable = true)
    (hid : s.this.get (cls.mappingOf s.this).keyName = some id)
    (hcoh : w.Coherent cls s.this.splitSuffix) (h : Through ((tree (delete cls) s).run E.answer w) w') :
    w'.Coherent cls s.this.splitSuffix := by
  rw [tree_delete (key_ne_none hst) hid, if_pos hcache, run_attempt] at h
  change Through ((sendsOwn s (deleter cls s.this) .delete).run E.answer (w.drop cls id)) w' at h
  obtain ⟨f, w₁, hexecute, -, hw'⟩ := through_sends rfl h
  change w₁ = w' at hw'
  subst hw'
  obtain ⟨n, w₂, hexecute', hcached, hrows⟩ := execute_deleter hst hid (w.drop cls id)
  rw [hexecute] at hexecute'
  cases hexecute'
  have hcached' : ∀ id', w₁.cached cls id' = (w.drop cls id).cached cls id' := by
    intro id'
    rw [World.cached, hcached]
    rfl
  refine (World.coherent_iff_at hcoh
    (fun id' hne => (hcached' id').trans (w.cached_drop_ne id hst hne))
    (fun id' hne => (hrows id').trans (if_neg hne))).mpr ?_
  exact World.coherentAt_of_none ((hcached' id).trans (w.cached_drop_self id))

/-- An insert that went through leaves the cache coherent exactly when its new row
    takes the object's values as they are. -/
theorem coherent_insert_iff (hst : cls.Stored E s.this.splitSuffix) (hcache : cls.enableCache = true)
    (hcoh : w.Coherent cls s.this.splitSuffix) (h : Through ((tree (insert cls) s).run E.answer w) w') :
    w'.Coherent cls s.this.splitSuffix ↔ KeptNew cls E s.this := by
  rw [tree_insert hst] at h
  obtain ⟨f, w₁, hexecute, h⟩ := through_sends (pdoValues_writer s.this) h
  obtain ⟨id, hlast, hcached, hcell, hfree, hrows⟩ := execute_writer hexecute
  rw [run_attempt] at h
  simp only [Engine.answer, hlast, stores, hcache, if_true] at h
  rw [run_attempt] at h
  obtain ⟨-, hw'⟩ := h
  change w₁.put cls id (inserted cls s.this (some id)) = w' at hw'
  subst hw'
  have hcached' : ∀ id', id' ≠ id →
      (w₁.put cls id (inserted cls s.this (some id))).cached cls id' = w.cached cls id' := by
    intro id' hne
    rw [w₁.cached_put_ne id _ hst hne, World.cached, hcached]
    rfl
  rw [World.coherent_iff_at hcoh hcached' (fun id' hne => (hrows id').trans (if_neg hne)),
    World.coherentAt_some (w₁.cached_put_self id _), World.rowOf_put, hrows, if_pos rfl,
    ← shows_newRow_iff hst hcell]
  refine ⟨fun hx => ?_, fun hshows => ?_⟩
  · obtain ⟨r, hr, hshows⟩ := hx
    cases hr
    exact hshows
  · exact ⟨_, rfl, hshows⟩

/-- The values a `save` writes are those of the row it leaves: an insert's in the
    new row, an update's in the row it finds. -/
def TakesSave (cls : ModelClass V) (w : World E) (o : Obj V) (data : List (String × Val V)) : Prop :=
  if inserts cls data o then KeptNew cls E (saved cls data o).2
  else ∀ id, o.get (cls.mappingOf o).keyName = some id →
    ∃ r, w.rowOf cls o.splitSuffix id = some r ∧ KeptIn cls E (saved cls data o).2 r

/-- With the cache on, no update and no delete goes through without a key. -/
theorem get_key_of_through_update (hcache : cls.cacheEnable = true)
    (h : Through ((tree (update cls) s).run E.answer w) w') :
    ∃ id, s.this.get (cls.mappingOf s.this).keyName = some id := by
  cases hid : s.this.get (cls.mappingOf s.this).keyName with
  | some id => exact ⟨id, rfl⟩
  | none =>
    simp only [update, hcache, if_true, tree_bind, tree_cacheUpdate, hid, Prog.bind_ret,
      andThen_error] at h
    obtain ⟨⟨n, hn⟩, -⟩ := h
    cases hn

theorem get_key_of_through_delete (hcache : cls.cacheEnable = true)
    (h : Through ((tree (delete cls) s).run E.answer w) w') :
    ∃ id, s.this.get (cls.mappingOf s.this).keyName = some id := by
  cases hid : s.this.get (cls.mappingOf s.this).keyName with
  | some id => exact ⟨id, rfl⟩
  | none =>
    simp only [delete, cacheDelete, getPrimaryKey, hcache, if_true, tree_bind, tree_get, Prog.bind_ret,
      andThen_ok, hid, tree_throw, andThen_error] at h
    obtain ⟨⟨n, hn⟩, -⟩ := h
    cases hn

/-- A `save` that went through leaves the cache coherent exactly when the row takes
    its values. -/
theorem coherent_save_iff (hst : cls.Stored E s.this.splitSuffix) (hcache : cls.cacheEnable = true)
    {data : List (String × Val V)} (hdata : "splitSuffix" ∉ assocKeys data)
    (hcoh : w.Coherent cls s.this.splitSuffix)
    (h : Through ((tree (save cls data) s).run E.answer w) w') :
    w'.Coherent cls s.this.splitSuffix ↔ TakesSave cls w s.this data := by
  have hsuffix : (saved cls data s.this).2.splitSuffix = s.this.splitSuffix :=
    splitSuffix_saved hdata s.this
  have hst' : cls.Stored E (saved cls data s.this).2.splitSuffix := by
    rw [hsuffix]
    exact hst
  have hcoh' : w.Coherent cls (saved cls data s.this).2.splitSuffix := by
    rw [hsuffix]
    exact hcoh
  have henable : cls.enableCache = true := by
    rw [ModelClass.cacheEnable, Bool.and_eq_true] at hcache
    exact hcache.1
  rw [tree_save hst hdata] at h
  unfold TakesSave
  cases hok : (saved cls data s.this).1 with
  | error e =>
    -- a save that raises has not gone through
    rw [hok] at h
    obtain ⟨⟨n, hn⟩, -⟩ := h
    cases hn
  | ok u =>
    simp only [hok] at h
    by_cases hins : inserts cls data s.this = true
    · rw [if_pos hins] at h ⊢
      have hinsert := coherent_insert_iff (s := { s with this := (saved cls data s.this).2 }) hst' henable
        hcoh' h
      rw [← hinsert]
      exact iff_of_eq (congrArg _ hsuffix.symm)
    · rw [if_neg hins] at h ⊢
      obtain ⟨id, hid⟩ := get_key_of_through_update hcache h
      have hupdate := coherent_update_iff (s := { s with this := (saved cls data s.this).2 }) hst' hcache
        hid hcoh' h
      have hkey : s.this.get (cls.mappingOf s.this).keyName = some id := by
        rw [← key_saved hdata s.this]
        exact hid
      change w'.Coherent cls (saved cls data s.this).2.splitSuffix ↔ ∃ r,
        w.rowOf cls (saved cls data s.this).2.splitSuffix id = some r ∧ _ at hupdate
      rw [hsuffix] at hupdate
      rw [hupdate]
      constructor
      · intro hrow id' hid'
        rw [hkey] at hid'
        cases hid'
        exact hrow
      · exact fun hrow => hrow id hkey

end

end DataObject

/-! Runs. -/

/-- What a process does with the rows of one class and suffix. -/
inductive Operation (V : Type) where
  | create (data : List (String × Val V))
  | save (o : Obj V) (data : List (String × Val V))
  | delete (o : Obj V)
  | findByPk (id : V) (throwException : Bool)
  | findByPks (ids : List V)

namespace Operation

/-- A method of an object, its result aside. -/
def onObject (o : Obj V) (m : ObjM V Nat) : Php V Statics Unit := do
  let _ ← Method.on (fun st => (⟨o, st⟩ : ObjSelf V)) (fun _ s => s.statics) m

/-- A call on a fresh accessor of the class, its result aside. -/
def onModel {α : Type} (cls : ModelClass V) (suffix : String) (m : AccM V α) : Php V Statics Unit := do
  let a ← MysqlAccessor.useModel cls suffix
  let _ ← Method.on (fun st => (⟨a, st⟩ : Self V)) (fun _ s => s.statics) m

def method (cls : ModelClass V) (suffix : String) : Operation V → Php V Statics Unit
  | .create data => do
    let o ← Method.lift (DataObject.create cls data suffix)
    onObject o (DataObject.save cls)
  | .save o data => onObject o (DataObject.save cls data)
  | .delete o => onObject o (DataObject.delete cls)
  | .findByPk id throwException => onModel cls suffix (MysqlAccessor.findByPk id throwException)
  | .findByPks ids => onModel cls suffix (MysqlAccessor.findByPks ids)

/-- The operation is about the suffix: its object carries it, and keeps it. -/
def Fits (suffix : String) : Operation V → Prop
  | .create data => "splitSuffix" ∉ assocKeys data
  | .save o data => o.splitSuffix = suffix ∧ "splitSuffix" ∉ assocKeys data
  | .delete o => o.splitSuffix = suffix
  | .findByPk _ _ | .findByPks _ => True

instance (suffix : String) : DecidablePred (Fits (V := V) suffix)
  | .create data => inferInstanceAs (Decidable ("splitSuffix" ∉ assocKeys data))
  | .save o data =>
    inferInstanceAs (Decidable (o.splitSuffix = suffix ∧ "splitSuffix" ∉ assocKeys data))
  | .delete o => inferInstanceAs (Decidable (o.splitSuffix = suffix))
  | .findByPk _ _ | .findByPks _ => isTrue trivial

/-- What the operation writes is what the row then holds. -/
def Takes (cls : ModelClass V) (suffix : String) (w : World E) : Operation V → Prop
  | .create data => ∀ o, DataObject.create cls data suffix = .ok o → DataObject.TakesSave cls w o []
  | .save o data => DataObject.TakesSave cls w o data
  | .delete _ | .findByPk _ _ | .findByPks _ => True

/-- A process and the world, after the operation. -/
def step (cls : ModelClass V) (suffix : String) (p : Statics × World E) (op : Operation V) :
    Statics × World E := (exec E.answer (op.method cls suffix) p.1 p.2).2

/-- The operation raises nothing. -/
def Succeeds (cls : ModelClass V) (suffix : String) (p : Statics × World E) (op : Operation V) : Prop :=
  (exec E.answer (op.method cls suffix) p.1 p.2).1 = .ok ()

instance (p : Statics × World E) (op : Operation V) : Decidable (op.Succeeds cls suffix p) := by
  unfold Succeeds
  infer_instance

omit [DecidableEq V] in
/-- A created object carries the suffix it was created with. -/
theorem splitSuffix_create (hst : cls.Stored E suffix) {data : List (String × Val V)}
    (hdata : "splitSuffix" ∉ assocKeys data) {o : Obj V}
    (ho : DataObject.create cls data suffix = .ok o) : o.splitSuffix = suffix := by
  obtain ⟨obj, hc⟩ := hst.construct
  have hproperties : "splitSuffix" ∉ (cls.getMapping suffix).properties :=
    hst.declared _ (by simp [declaredProperties])
  have hkeys : "splitSuffix" ∉ assocKeys (assocErase data (cls.getMapping suffix).keyName) :=
    fun hmem => hdata (mem_assocKeys_erase.mp hmem).1
  have hcreate : o = (cls.assignEach (assocErase data (cls.getMapping suffix).keyName) obj).2 := by
    rw [DataObject.create, hc] at ho
    change (cls.assignEach _ obj).1.bind _ = .ok o at ho
    cases hassign : (cls.assignEach (assocErase data (cls.getMapping suffix).keyName) obj).1 with
    | error e =>
      rw [hassign] at ho
      cases ho
    | ok u =>
      rw [hassign] at ho
      cases ho
      rfl
  rw [hcreate, Obj.splitSuffix, cls.get_assignEach hkeys,
    ModelClass.get_splitSuffix_construct hproperties hc]
  exact PhpScalar.toText_ofText suffix

variable {p : Statics × World E}

theorem through_onObject {o : Obj V} {m : ObjM V Nat}
    (h : (exec E.answer (onObject o m) p.1 p.2).1 = .ok ()) :
    DataObject.Through ((tree m ⟨o, p.1⟩).run E.answer p.2) (exec E.answer (onObject o m) p.1 p.2).2.2 := by
  rw [onObject, exec_bind_pure, exec_on] at h ⊢
  refine ⟨?_, rfl⟩
  change ((exec E.answer m ⟨o, p.1⟩ p.2).1.map _).map _ = .ok () at h
  show ∃ a, (exec E.answer m ⟨o, p.1⟩ p.2).1 = .ok a
  cases hm : (exec E.answer m ⟨o, p.1⟩ p.2).1 with
  | ok a => exact ⟨a, rfl⟩
  | error e =>
    rw [hm] at h
    cases h

theorem world_onModel {α : Type} (hst : cls.Stored E suffix) (m : AccM V α) :
    (exec E.answer (onModel cls suffix m) p.1 p.2).2.2 =
      (exec E.answer m ⟨Accessor.fresh cls suffix, { p.1 with splitSuffix := suffix }⟩ p.2).2.2 := by
  have huse : ¬(cls.getMapping suffix).key = none := by
    rw [hst.key]
    exact Option.some_ne_none _
  rw [onModel, exec_bind, DataObject.exec_useModel, if_neg huse]
  simp only [exec_bind_pure, exec_on]

/-- An operation that raises nothing keeps the cache coherent exactly when the row
    takes what it writes. -/
theorem coherent_step_iff (hst : cls.Stored E suffix) (hcache : cls.cacheEnable = true) {op : Operation V}
    (hfits : op.Fits suffix) (hok : op.Succeeds cls suffix p) (hcoh : p.2.Coherent cls suffix) :
    (op.step cls suffix p).2.Coherent cls suffix ↔ op.Takes cls suffix p.2 := by
  obtain ⟨obj, hc⟩ := hst.construct
  cases op with
  | create data =>
    cases ho : DataObject.create cls data suffix with
    | error e =>
      simp only [Succeeds, method, exec_bind, exec_lift, ho] at hok
      cases hok
    | ok o =>
      have hsuffix : o.splitSuffix = suffix := splitSuffix_create hst hfits ho
      subst hsuffix
      have hexec : exec E.answer ((create data).method cls o.splitSuffix) p.1 p.2 =
          exec E.answer (onObject o (DataObject.save cls)) p.1 p.2 := by
        simp only [method, exec_bind, exec_lift, ho]
      rw [Succeeds, hexec] at hok
      have hsave := DataObject.coherent_save_iff (s := ⟨o, p.1⟩) hst hcache
        (by simp [assocKeys]) hcoh (through_onObject hok)
      rw [step, hexec, hsave]
      constructor
      · intro htakes o' ho'
        rw [ho] at ho'
        cases ho'
        exact htakes
      · exact fun htakes => htakes o ho
  | save o data =>
    obtain ⟨rfl, hdata⟩ := hfits
    exact DataObject.coherent_save_iff (s := ⟨o, p.1⟩) hst hcache hdata hcoh (through_onObject hok)
  | delete o =>
    obtain rfl := hfits
    have hthrough := through_onObject hok
    obtain ⟨id, hid⟩ := DataObject.get_key_of_through_delete hcache hthrough
    exact iff_of_true (DataObject.coherent_delete (s := ⟨o, p.1⟩) hst hcache hid hcoh hthrough) trivial
  | findByPk id throwException =>
    refine iff_of_true ?_ trivial
    show (exec E.answer (onModel cls suffix _) p.1 p.2).2.2.Coherent cls suffix
    rw [world_onModel hst]
    exact MysqlAccessor.coherent_findByPk hst hc id throwException hcoh
  | findByPks ids =>
    refine iff_of_true ?_ trivial
    show (exec E.answer (onModel cls suffix _) p.1 p.2).2.2.Coherent cls suffix
    rw [world_onModel hst]
    exact MysqlAccessor.coherent_findByPks hst hc ids hcoh

end Operation

end

/-! Users. -/

namespace Operation

theorem coherent_annWorld : annWorld.Coherent userClass "" :=
  fun _ => World.coherentAt_of_none rfl

end Operation

end RubbishStore.Pdo
