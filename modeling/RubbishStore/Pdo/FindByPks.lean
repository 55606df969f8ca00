import Mathlib.Data.List.Count
import RubbishStore.Pdo.Stored

/- `find_by_pks` against the map from keys to rows. The ids the cache does not
   answer are read from the table, and the two maps are merged; the result is
   the list of the ids' objects when there is something to read
   (`exec_loadByPks`). When every id is cached there is nothing: the cache's
   own map is returned, or `filter` refuses the empty list of what is left. -/
namespace RubbishStore.Pdo
open RubbishStore.Lib
open Method

/-! Multi-gets. -/

section
variable {κ β : Type} [DecidableEq κ]

/-- A multi-get, one key more. -/
theorem found_append_singleton (cache : List (κ × β)) (keys : List κ) (k : κ) :
    Engine.found cache (keys ++ [k]) =
      match cache.lookup k with
      | some o => assocSet (Engine.found cache keys) k o
      | none => Engine.found cache keys := by
  rw [Engine.found, List.foldl_append]
  rfl

/-- A multi-get answers as many gets would. -/
theorem lookup_found (cache : List (κ × β)) (keys : List κ) (k : κ) :
    (Engine.found cache keys).lookup k = if k ∈ keys then cache.lookup k else none := by
  induction keys using List.reverseRecOn with
  | nil => rfl
  | append_singleton keys k' ih =>
    rw [found_append_singleton]
    cases hk' : cache.lookup k' with
    | none =>
      by_cases hk : k = k'
      · subst hk
        simp [ih, hk']
      · simp [ih, hk]
    | some o =>
      simp only [lookup_set, ih, List.mem_append, List.mem_singleton]
      by_cases hk : k' = k
      · subst hk
        simp [hk']
      · have hk' : ¬k = k' := fun e => hk e.symm
        simp [hk, hk']

/-- It finds no more keys than it was asked for, less those that are missing. -/
theorem length_found (cache : List (κ × β)) (keys : List κ) :
    (Engine.found cache keys).length ≤ keys.countP fun k => (cache.lookup k).isSome := by
  induction keys using List.reverseRecOn with
  | nil => exact Nat.le_refl 0
  | append_singleton keys k ih =>
    have hset : ∀ o, (assocSet (Engine.found cache keys) k o).length ≤
        (Engine.found cache keys).length + 1 := by
      intro o
      have hkeys := congrArg List.length (assocKeys_set (Engine.found cache keys) k o)
      rw [assocKeys, List.length_map] at hkeys
      rw [hkeys]
      split <;> simp [assocKeys]
    rw [found_append_singleton, List.countP_append, List.countP_singleton]
    cases hk : cache.lookup k with
    | none => simpa using ih
    | some o =>
      have hone := hset o
      simp only [Option.isSome_some, if_true]
      omega

theorem mem_of_lookup {m : List (κ × β)} {k : κ} {o : β} (h : m.lookup k = some o) : (k, o) ∈ m := by
  induction m with
  | nil => simp at h
  | cons p m ih =>
    rw [lookup_cons_ite] at h
    split at h
    · next hk =>
      cases h
      subst hk
      exact List.mem_cons_self
    · exact List.mem_cons_of_mem _ (ih h)

theorem nodup_keys_found (cache : List (κ × β)) (keys : List κ) :
    (assocKeys (Engine.found cache keys)).Nodup := by
  induction keys using List.reverseRecOn with
  | nil => exact List.nodup_nil
  | append_singleton keys k ih =>
    rw [found_append_singleton]
    cases cache.lookup k with
    | none => exact ih
    | some o =>
      rw [assocKeys_set]
      split
      · exact ih
      · next hk => exact List.nodup_append.mpr ⟨ih, List.nodup_singleton k, by
          intro a ha b hb hab
          subst hab
          rw [List.mem_singleton.mp hb] at ha
          exact hk ha⟩

theorem mem_found {cache : List (κ × β)} {keys : List κ} {p : κ × β} :
    p ∈ Engine.found cache keys ↔ p.1 ∈ keys ∧ cache.lookup p.1 = some p.2 := by
  have hlookup := lookup_found cache keys p.1
  refine ⟨fun hp => ?_, fun h => ?_⟩
  · rw [lookup_of_mem (nodup_keys_found cache keys) hp] at hlookup
    by_cases hk : p.1 ∈ keys
    · rw [if_pos hk] at hlookup
      exact ⟨hk, hlookup.symm⟩
    · simp [hk] at hlookup
  · obtain ⟨hk, hp⟩ := h
    rw [if_pos hk, hp] at hlookup
    exact mem_of_lookup hlookup

end

section
variable {V : Type} [DecidableEq V]

/-- The key of an object, as a key of rows. -/
def keyOf (key : String) (o : Obj V) : Val V := o.get key

/-- `$arr[$obj->$key] = $obj` keeps the last object of a key. -/
theorem lookup_byKey (key : String) (objs : List (Obj V)) (k : Val V) :
    (byKey key objs).lookup k = findKey (keyOf key) objs.reverse k := by
  induction objs using List.reverseRecOn with
  | nil => rfl
  | append_singleton objs o ih =>
    have hstep : byKey key (objs ++ [o]) = assocSet (byKey key objs) (o.get key) o := by
      rw [byKey, List.foldl_append]
      rfl
    rw [hstep, lookup_set, List.reverse_append, List.reverse_singleton, List.singleton_append,
      findKey_cons, ih]
    rfl

variable [PhpScalar V] {E : Engine V} {cls : ModelClass V} {suffix : String}

/-- What `find_by_pks` is for: the object of each id, in the order of the ids. -/
def World.objectsOf (w : World E) (cls : ModelClass V) (suffix : String) (obj : Obj V)
    (ids : List V) : ObjArray V :=
  ids.zipIdx.map fun p =>
    (.idx p.2, (w.rowOf cls suffix p.1).map ((Accessor.fresh cls suffix).fill obj))

/-- Every cached object is the one its row would load. -/
def World.CachesRows (w : World E) (cls : ModelClass V) (suffix : String) (obj : Obj V) : Prop :=
  ∀ id o, w.cached cls id = some o →
    (w.rowOf cls suffix id).map ((Accessor.fresh cls suffix).fill obj) = some o

namespace MysqlAccessor

/-- `set_cached_objs`, on the cache. -/
def storeEach (cls : ModelClass V) (key : String) (objs : List (Obj V))
    (cache : List (String × Obj V)) : List (String × Obj V) :=
  objs.foldl (fun cache o => assocSet cache (cls.getObjKey (o.get key)) o) cache

omit [PhpScalar V] [DecidableEq V] in
theorem exec_setCachedObjs [DecidableEq V] [PhpScalar V] (objs : List (Obj V)) (s : Self V)
    (w : World E) :
    exec E.answer (setCachedObjs objs) s w =
      (.ok (), s, { w with
        cache := storeEach s.this.model s.this.mapping.keyName objs w.cache }) := by
  induction objs generalizing w with
  | nil => rfl
  | cons o objs ih =>
    simp only [setCachedObjs, exec_bind, exec_get, exec_perform, Engine.answer, ih]
    rfl

/-- The statement that looks for several keys. -/
def keysStmt (s : Self V) (ids : List V) : Stmt V :=
  (filteredByKey s "in" (.list (ids.map some))).this.stmt .findAll

/-- The objects of the ids that are read from the table. -/
def loadedBy (s : Self V) (obj : Obj V) (w : World E) (ids : List V) : List (Obj V) :=
  (E.select w (keysStmt s ids) [] false).map (s.this.fill obj)

/-- `find_by_pk_internal` on a list of ids. -/
theorem exec_findByPkInternal_in {st : Statics} {obj : Obj V}
    (hc : cls.construct st.splitSuffix = .ok obj) {ids : List V} (hids : ids ≠ []) (w : World E) :
    exec E.answer (findByPkInternal (.list (ids.map some))) ⟨Accessor.fresh cls suffix, st⟩ w =
      (.ok (loadedBy ⟨Accessor.fresh cls suffix, st⟩ obj w ids),
        Self.loaded (filteredByKey ⟨Accessor.fresh cls suffix, st⟩ "in" (.list (ids.map some))) obj
          (E.select w (keysStmt ⟨Accessor.fresh cls suffix, st⟩ ids) [] false), w) := by
  let s : Self V := ⟨Accessor.fresh cls suffix, st⟩
  have hfilter : s.this.filter s.this.mapping.keyName (.list (ids.map some)) =
      .ok (s.this.filterByOp s.this.mapping.keyName "in" (.list (ids.map some))) := by
    cases ids with
    | nil => exact absurd rfl hids
    | cons id ids => rfl
  have hinternal := tree_findByPkInternal hfilter
  have hfind : tree findAll (filteredByKey s "in" (.list (ids.map some))) = _ := tree_findAll hc
  rw [exec_eq_run, hinternal, hfind, run_sends_answer rfl]
  rfl

/-- No ids left: `filter` raises. -/
theorem exec_findByPkInternal_nil (s : Self V) (w : World E) :
    exec E.answer (findByPkInternal (.list [])) s w =
      (.error { message := "values can not be empty array", code := "005" }, s, w) := by
  simp only [findByPkInternal, exec_bind, exec_get, exec_lift, Accessor.filter]

/-- The ids that the objects of the cache leave to be read. -/
def missing (key : String) (ids : List V) (memObjs : List (Obj V)) : List V :=
  ids.filter fun id => some id ∉ memObjs.map fun o => o.get key

/-- The list of the ids, each with its object: the cache's, or the table's. -/
def merged (key : String) (ids : List V) (memObjs dbObjs : List (Obj V)) : ObjArray V :=
  ids.zipIdx.map fun p =>
    (.idx p.2, ((byKey key memObjs).lookup (some p.1)).or ((byKey key dbObjs).lookup (some p.1)))

/-- What `find_by_pks` does once the cache has answered: where ids are missing,
    it reads them, caches what it read and merges. -/
theorem exec_loadByPks {st : Statics} {obj : Obj V} (hc : cls.construct st.splitSuffix = .ok obj)
    {ids : List V} {memObjs : List (Obj V)}
    (hmissing : missing (cls.getMapping suffix).keyName ids memObjs ≠ []) (w : World E) :
    let s : Self V := ⟨Accessor.fresh cls suffix, st⟩
    let key := (cls.getMapping suffix).keyName
    let dbObjs := loadedBy s obj w (missing key ids memObjs)
    ∃ s', exec E.answer (loadByPks ids memObjs) s w =
      (.ok (merged key ids memObjs dbObjs), s',
        if cls.cacheEnable then { w with cache := storeEach cls key dbObjs w.cache } else w) := by
  intro s key dbObjs
  have hload : exec E.answer (findByPkInternal (.list ((missing key ids memObjs).map some))) s w = _ :=
    exec_findByPkInternal_in hc hmissing w
  obtain ⟨hmodel, hmapping, hcache⟩ := Self.loaded_frame
    (filteredByKey s "in" (.list ((missing key ids memObjs).map some))) obj
    (E.select w (keysStmt s (missing key ids memObjs)) [] false)
  refine ⟨Self.loaded (filteredByKey s "in" (.list ((missing key ids memObjs).map some))) obj
    (E.select w (keysStmt s (missing key ids memObjs)) [] false), ?_⟩
  have hids : (ids.filter fun id => some id ∉ memObjs.map fun o => o.get s.this.mapping.keyName) =
      missing key ids memObjs := rfl
  simp only [loadByPks, exec_bind, exec_get, hids]
  rw [hload]
  simp only [exec_ite, exec_bind, exec_setCachedObjs, exec_pure]
  rw [hmodel, hmapping]
  show (if cls.cacheEnable then _ else _) = _
  split <;> rfl

/-- Without missing ids it raises. -/
theorem exec_loadByPks_nil {s : Self V} {ids : List V} {memObjs : List (Obj V)}
    (hmissing : missing s.this.mapping.keyName ids memObjs = []) (w : World E) :
    exec E.answer (loadByPks ids memObjs) s w =
      (.error { message := "values can not be empty array", code := "005" }, s, w) := by
  have hids : (ids.filter fun id => some id ∉ memObjs.map fun o => o.get s.this.mapping.keyName) =
      [] := hmissing
  simp only [loadByPks, exec_bind, exec_get, hids, List.map_nil, exec_findByPkInternal_nil]

/-- The objects read for the ids are those of their rows. -/
theorem lookup_loadedBy (hst : cls.Stored E suffix) (st : Statics) (obj : Obj V) (w : World E)
    (ids : List V) (id : V) :
    (byKey (cls.getMapping suffix).keyName (loadedBy ⟨Accessor.fresh cls suffix, st⟩ obj w ids)).lookup
        (some id) =
      if id ∈ ids then (w.rowOf cls suffix id).map ((Accessor.fresh cls suffix).fill obj)
      else none := by
  have hconds : (keysStmt ⟨Accessor.fresh cls suffix, st⟩ ids).conds =
      [⟨E.keyColumn (cls.getMapping suffix).table, "in", .list (ids.map some)⟩] := by
    rw [hst.keyColumn]
    rfl
  obtain ⟨hdistinct, hfind⟩ := Engine.select_in (w := w) hconds rfl rfl
  have hkey : ∀ r, keyOf (cls.getMapping suffix).keyName ((Accessor.fresh cls suffix).fill obj r) =
      cell (E.keyColumn (cls.getMapping suffix).table) r :=
    fun r => hst.shows_key (hst.shows_fill rfl obj r)
  have hmap : ∀ rows, findKey (keyOf (cls.getMapping suffix).keyName)
      (rows.map ((Accessor.fresh cls suffix).fill obj)) (some id) =
      (findKey (cell (E.keyColumn (cls.getMapping suffix).table)) rows (some id)).map
        ((Accessor.fresh cls suffix).fill obj) :=
    fun rows => findKey_map (fun r _ => hkey r) _
  rw [lookup_byKey, loadedBy, ← List.map_reverse, hmap]
  refine (congrArg (Option.map _) ((hdistinct.findKey_perm (List.reverse_perm _) _).trans
    (hfind id))).trans ?_
  split <;> rfl

/-- Where the cache answers with the objects of rows, merging gives the object
    of every id. -/
theorem merged_eq (hst : cls.Stored E suffix) (st : Statics) {obj : Obj V} {w : World E}
    {ids : List V} {memObjs : List (Obj V)}
    (hmem : ∀ o ∈ memObjs, ∃ id, o.get (cls.getMapping suffix).keyName = some id ∧
      (w.rowOf cls suffix id).map ((Accessor.fresh cls suffix).fill obj) = some o) :
    merged (cls.getMapping suffix).keyName ids memObjs
        (loadedBy ⟨Accessor.fresh cls suffix, st⟩ obj w
          (missing (cls.getMapping suffix).keyName ids memObjs)) =
      w.objectsOf cls suffix obj ids := by
  refine List.map_congr_left fun p hp => ?_
  have hid : p.1 ∈ ids := List.fst_mem_of_mem_zipIdx hp
  congr 1
  rw [lookup_loadedBy hst, lookup_byKey]
  cases hfound : findKey (keyOf (cls.getMapping suffix).keyName) memObjs.reverse (some p.1) with
  | some o =>
    -- the cache has it: the object of a row with this key
    obtain ⟨id, hget, hrow⟩ := hmem o (List.mem_reverse.mp (mem_of_findKey hfound))
    have hkey : keyOf (cls.getMapping suffix).keyName o = some p.1 := key_of_findKey hfound
    have hsame : some id = some p.1 := hget.symm.trans hkey
    cases hsame
    rw [hrow]
    rfl
  | none =>
    have hmissing : p.1 ∈ missing (cls.getMapping suffix).keyName ids memObjs := by
      refine List.mem_filter.mpr ⟨hid, decide_eq_true ?_⟩
      intro hmem
      obtain ⟨o, ho, hget⟩ := List.mem_map.mp hmem
      exact findKey_eq_none.mp hfound o (List.mem_reverse.mpr ho) hget
    rw [if_pos hmissing]
    rfl

/-- The objects a multi-get answers with, for a cache that agrees with the rows. -/
def memObjsOf (cls : ModelClass V) (w : World E) (ids : List V) : List (String × Obj V) :=
  Engine.found w.cache (ids.map fun id => cls.getObjKey (some id))

theorem memObjs_spec (hst : cls.Stored E suffix) {obj : Obj V} {w : World E}
    (hcache : w.CachesRows cls suffix obj) {ids : List V} {o : Obj V}
    (ho : o ∈ (memObjsOf cls w ids).map Prod.snd) :
    ∃ id, o.get (cls.getMapping suffix).keyName = some id ∧ w.cached cls id = some o ∧
      (w.rowOf cls suffix id).map ((Accessor.fresh cls suffix).fill obj) = some o := by
  obtain ⟨p, hp, rfl⟩ := List.mem_map.mp ho
  obtain ⟨hkey, hlookup⟩ := mem_found.mp hp
  obtain ⟨id, -, hid⟩ := List.mem_map.mp hkey
  have hcached : w.cached cls id = some p.2 := by
    rw [World.cached, hid]
    exact hlookup
  have hrow := hcache id p.2 hcached
  obtain ⟨r, hr, hfill⟩ := Option.map_eq_some_iff.mp hrow
  refine ⟨id, ?_, hcached, hrow⟩
  rw [← hfill, hst.shows_key (hst.shows_fill rfl obj r)]
  exact (Table.row_eq_some.mp hr).2

/-- The missing ids are those without a cached object. -/
theorem mem_missing (hst : cls.Stored E suffix) {obj : Obj V} {w : World E}
    (hcache : w.CachesRows cls suffix obj) {ids : List V} {id : V} :
    id ∈ missing (cls.getMapping suffix).keyName ids ((memObjsOf cls w ids).map Prod.snd) ↔
      id ∈ ids ∧ w.cached cls id = none := by
  rw [missing, List.mem_filter, decide_eq_true_iff]
  refine and_congr_right fun hid => ?_
  constructor
  · intro hnot
    by_contra hcached
    obtain ⟨o, ho⟩ := Option.ne_none_iff_exists'.mp hcached
    have hmem : o ∈ (memObjsOf cls w ids).map Prod.snd :=
      List.mem_map.mpr ⟨(cls.getObjKey (some id), o),
        mem_found.mpr ⟨List.mem_map_of_mem hid, ho⟩, rfl⟩
    have hrow := hcache id o ho
    obtain ⟨r, hr, hfill⟩ := Option.map_eq_some_iff.mp hrow
    refine hnot (List.mem_map.mpr ⟨o, hmem, ?_⟩)
    rw [← hfill, hst.shows_key (hst.shows_fill rfl obj r)]
    exact (Table.row_eq_some.mp hr).2
  · intro hnone hmem
    obtain ⟨o, ho, hget⟩ := List.mem_map.mp hmem
    obtain ⟨id', hget', hcached, -⟩ := memObjs_spec hst hcache ho
    have hsame : some id' = some id := hget'.symm.trans hget
    cases hsame
    rw [hnone] at hcached
    cases hcached

omit [DecidableEq V] [PhpScalar V] in
/-- An id without a cached object makes the multi-get shorter than the list. -/
theorem length_memObjsOf_lt {w : World E} {ids : List V} {id : V} (hid : id ∈ ids)
    (hnone : w.cached cls id = none) : (memObjsOf cls w ids).length < ids.length := by
  have hle := length_found w.cache (ids.map fun id => cls.getObjKey (some id))
  rw [List.countP_map] at hle
  refine lt_of_le_of_lt hle (List.countP_lt_length_iff.mpr ⟨id, hid, ?_⟩)
  show (w.cached cls id).isSome = false
  rw [hnone]
  rfl

theorem exec_findByPks (ids : List V) (st : Statics) (w : World E) :
    exec E.answer (findByPks ids) ⟨Accessor.fresh cls suffix, st⟩ w =
      if cls.cacheEnable && !st.delCache then
        if !(memObjsOf cls w ids).isEmpty && (memObjsOf cls w ids).length = ids.length then
          (.ok ((memObjsOf cls w ids).map fun p => (.text p.1, some p.2)),
            ⟨Accessor.fresh cls suffix, st⟩, w)
        else
          exec E.answer (loadByPks ids ((memObjsOf cls w ids).map Prod.snd))
            ⟨Accessor.fresh cls suffix, st⟩ w
      else exec E.answer (loadByPks ids []) ⟨Accessor.fresh cls suffix, st⟩ w := by
  simp only [findByPks, exec_bind, exec_get, exec_ite, exec_perform, Engine.answer, exec_pure]
  rfl

/-- Loading what the cache does not hold gives the list of the ids' objects if there
    is anything to load. -/
theorem loadByPks_lists_iff (hst : cls.Stored E suffix) {st : Statics} {obj : Obj V}
    (hc : cls.construct st.splitSuffix = .ok obj) (w : World E) (ids : List V) {memObjs : List (Obj V)}
    (hmem : ∀ o ∈ memObjs, ∃ id, o.get (cls.getMapping suffix).keyName = some id ∧
      (w.rowOf cls suffix id).map ((Accessor.fresh cls suffix).fill obj) = some o) :
    (exec E.answer (loadByPks ids memObjs) ⟨Accessor.fresh cls suffix, st⟩ w).1 =
        .ok (w.objectsOf cls suffix obj ids) ↔
      missing (cls.getMapping suffix).keyName ids memObjs ≠ [] := by
  by_cases hmissing : missing (cls.getMapping suffix).keyName ids memObjs = []
  · rw [exec_loadByPks_nil hmissing]
    simp [hmissing]
  · obtain ⟨s', hexec⟩ := exec_loadByPks hc hmissing w
    rw [hexec, merged_eq hst st hmem]
    simp [hmissing]

/-- Over a cache that agrees with the rows, `find_by_pks` returns the list of the
    ids' objects exactly when there is an id left to read from the table. -/
theorem findByPks_lists_iff (hst : cls.Stored E suffix) {st : Statics} {obj : Obj V}
    (hc : cls.construct st.splitSuffix = .ok obj) {w : World E}
    (hcache : w.CachesRows cls suffix obj) (ids : List V) :
    (exec E.answer (findByPks ids) ⟨Accessor.fresh cls suffix, st⟩ w).1 =
        .ok (w.objectsOf cls suffix obj ids) ↔
      if cls.cacheEnable && !st.delCache then ∃ id ∈ ids, w.cached cls id = none else ids ≠ [] := by
  rw [exec_findByPks]
  split
  · -- the cache is asked first
    have hmem : ∀ o ∈ (memObjsOf cls w ids).map Prod.snd,
        ∃ id, o.get (cls.getMapping suffix).keyName = some id ∧
          (w.rowOf cls suffix id).map ((Accessor.fresh cls suffix).fill obj) = some o := by
      intro o ho
      obtain ⟨id, hget, -, hrow⟩ := memObjs_spec hst hcache ho
      exact ⟨id, hget, hrow⟩
    have hleft : missing (cls.getMapping suffix).keyName ids ((memObjsOf cls w ids).map Prod.snd) ≠ [] ↔
        ∃ id ∈ ids, w.cached cls id = none := by
      rw [ne_eq, List.eq_nil_iff_forall_not_mem, not_forall_not]
      exact exists_congr fun id => mem_missing hst hcache
    rw [← hleft]
    split
    · next hall =>
      rw [Bool.and_eq_true, decide_eq_true_iff] at hall
      obtain ⟨hsome, hlength⟩ := hall
      constructor
      · -- as many hits as ids: the answer is a map from memcache's keys
        intro heq
        rw [Except.ok.injEq] at heq
        cases hobjs : memObjsOf cls w ids with
        | nil => simp [hobjs] at hsome
        | cons p ps =>
          cases ids with
          | nil => simp [hobjs] at hlength
          | cons id ids =>
            rw [hobjs] at heq
            simp [World.objectsOf] at heq
      · intro hsome'
        obtain ⟨id, hid, hnone⟩ := hleft.mp hsome'
        have hlt := length_memObjsOf_lt hid hnone
        omega
    · exact loadByPks_lists_iff hst hc w ids hmem
  · rw [loadByPks_lists_iff hst hc w ids (by simp)]
    simp [missing]

end MysqlAccessor

end

/-! Users. -/

namespace MysqlAccessor

/-- A cache with the one user agrees with her row. -/
theorem cachesRows_ann : (annWorld [("User:7", ann)]).CachesRows userClass "" newUser := by
  intro id o hcached
  change List.lookup ("User:" ++ id) [("User:7", ann)] = some o at hcached
  rw [lookup_cons_ite] at hcached
  split at hcached
  · next hkey =>
    have hid : "7" = id := userClass_stored.getObjKey "7" id hkey
    subst hid
    cases hcached
    decide
  · simp at hcached

/-- An id without a row among cached ones. -/
theorem findByPks_lists_missing :
    (exec userEngine.answer (findByPks ["8", "7"]) ⟨Accessor.fresh userClass "", {}⟩
        (annWorld [("User:7", ann)])).1 =
      .ok ((annWorld [("User:7", ann)]).objectsOf userClass "" newUser ["8", "7"]) := by
  have hc : userClass.construct ({} : Statics).splitSuffix = .ok newUser := by decide
  exact (findByPks_lists_iff userClass_stored hc cachesRows_ann ["8", "7"]).mpr (by decide)

/-- A cached id asked for twice: an error, where the row is there. And once: an
    array with memcache's key. -/
theorem findByPks_cached_ids :
    (annWorld [("User:7", ann)]).CachesRows userClass "" newUser ∧
      (exec userEngine.answer (findByPks ["7", "7"]) ⟨Accessor.fresh userClass "", {}⟩
        (annWorld [("User:7", ann)])).1 =
        .error { message := "values can not be empty array", code := "005" } ∧
      (exec userEngine.answer (findByPks ["7"]) ⟨Accessor.fresh userClass "", {}⟩
        (annWorld [("User:7", ann)])).1 = .ok [(.text "User:7", some ann)] ∧
      (annWorld [("User:7", ann)]).objectsOf userClass "" newUser ["7"] = [(.idx 0, some ann)] :=
  ⟨cachesRows_ann, by decide, by decide, by decide⟩

end MysqlAccessor

end RubbishStore.Pdo
