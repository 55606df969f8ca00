import RubbishStore.Pdo.LayerRouting
import RubbishStore.Pdo.RowCache

/- The layer over its tables, with a server that answers. `fetchLayer` returns an
   object for each row that meets its conditions, in the server's order, and with a
   limit those of one page (`fetchLayer_pages`). `insertLayer` is followed to the row
   it adds, and to the object that `fetchOneLayer` then finds by the new key
   (`insertLayer_fetchOneLayer`). -/
namespace RubbishStore.Pdo
open RubbishStore.Lib
open Method

section
variable {V : Type} [DecidableEq V] [PhpScalar V] {E : Engine V}

namespace ArrayLayer

/-! The parts of a call. -/

section
variable {W : Type} (h : Outside V W) (s : LayerStatics) (w : W)
omit [DecidableEq V] [PhpScalar V]

theorem exec_setDbSplit (dbSplit : String) :
    exec h (setDbSplit (V := V) dbSplit) s w = (.ok (), { s with dbSplit := afterSplit s.dbSplit dbSplit }, w) := by
  rw [setDbSplit, exec_modify, afterSplit]
  split <;> rfl

theorem exec_dataAccess {cls : LayerClass V} {suffix : String} (hkey : (cls.model.getMapping suffix).key ≠ none) :
    exec h (dataAccess cls suffix) s w =
      (.ok (Accessor.fresh (cls.under s.dbSplit) suffix), { s with statics := { s.statics with splitSuffix := suffix } }, w) := by
  have huse : ¬ ((cls.under s.dbSplit).getMapping suffix).key = none := hkey
  rw [dataAccess, exec_bind, exec_get]
  simp only [exec_bind_pure, exec_on, DataObject.exec_useModel, if_neg huse]
  rfl

theorem exec_onAccessor {α : Type} (a : Accessor V) (m : AccM V α) :
    exec h (onAccessor a m) s w =
      ((exec h m ⟨a, s.statics⟩ w).1, { s with statics := (exec h m ⟨a, s.statics⟩ w).2.1.statics },
        (exec h m ⟨a, s.statics⟩ w).2.2) := by
  simp only [onAccessor, exec_bind_pure, exec_on]
  cases (exec h m ⟨a, s.statics⟩ w).1 <;> rfl

end

omit [DecidableEq V] [PhpScalar V] in
/-- A class fits its tables whatever its connections are called. -/
theorem stored_under {cls : LayerClass V} {suffix : String} (hst : cls.model.Stored E suffix) (d : String) :
    (cls.under d).Stored E suffix :=
  ⟨hst.suffixed, hst.key, hst.key_mem, hst.properties_nodup, hst.columns_nodup, hst.columns_mem, hst.keyColumn,
    hst.declared, hst.getObjKey⟩

/-! Fetching. -/

omit [DecidableEq V] [PhpScalar V] in
/-- What `baseFetchLayer` fills of its accessor. -/
theorem fetching_eq (data : List (String × String × Operand V)) (order : List (String × String)) (limit limitStart : Nat)
    (a : Accessor V) :
    fetching data order limit limitStart a =
      { a with
        filters := data.foldl (fun f row => f.push row.1 row.2.1 row.2.2) a.filters
        sorts := order.foldl (fun sorts row => assocSet sorts row.1 row.2) a.sorts
        offsetFrom := if limitStart = 0 then a.offsetFrom else some limitStart
        limitTo := if limit = 0 then a.limitTo else some limit } := by
  have hdata : ∀ (data : List (String × String × Operand V)) (a : Accessor V),
      data.foldl (fun a row => a.filterByOp row.1 row.2.1 row.2.2) a =
        { a with filters := data.foldl (fun f row => f.push row.1 row.2.1 row.2.2) a.filters } := by
    intro data
    induction data with
    | nil => exact fun _ => rfl
    | cons row data ih => exact fun a => ih (a.filterByOp row.1 row.2.1 row.2.2)
  have horder : ∀ (order : List (String × String)) (a : Accessor V),
      order.foldl (fun a row => a.sort row.1 row.2) a =
        { a with sorts := order.foldl (fun sorts row => assocSet sorts row.1 row.2) a.sorts } := by
    intro order
    induction order with
    | nil => exact fun _ => rfl
    | cons row order ih => exact fun a => ih (a.sort row.1 row.2)
  simp only [fetching, hdata, horder]
  by_cases hlimit : limit = 0 <;> by_cases hstart : limitStart = 0 <;> simp only [hlimit, hstart, if_true, if_false] <;> rfl

omit [DecidableEq V] [PhpScalar V] in
theorem toList_foldl_push (data : List (String × String × Operand V)) (f : Filters V) :
    (data.foldl (fun f row => f.push row.1 row.2.1 row.2.2) f).toList = f.toList ++ data := by
  induction data generalizing f with
  | nil => exact (List.append_nil _).symm
  | cons row data ih => rw [List.foldl_cons, ih, Filters.toList_push, List.append_assoc]; rfl

/-- The order that `sort` has collected, by column. -/
def orderBy (m : Mapping) (order : List (String × String)) : List (String × String) :=
  (order.foldl (fun sorts row => assocSet sorts row.1 row.2) []).map fun s => (m.toDb s.1, s.2)

/-- The `limit` of `baseFetchLayer`, an offset only where there is one. -/
def limitOf (limit limitStart : Nat) : Option (Option Nat × Nat) :=
  if limit = 0 then none else some (if limitStart = 0 then none else some limitStart, limit)

omit [DecidableEq V] [PhpScalar V] in
/-- The statement of `fetchLayer`. -/
theorem stmt_fetching (cls : ModelClass V) (suffix : String) (data : List (String × String × Operand V))
    (order : List (String × String)) (limit limitStart : Nat) :
    (fetching data order limit limitStart (Accessor.fresh cls suffix)).stmt .findAll =
      { verb := .select [] false
        table := (cls.getMapping suffix).table
        conds := data.map (Accessor.cond (cls.getMapping suffix))
        orderBy := orderBy (cls.getMapping suffix) order
        limit := limitOf limit limitStart } := by
  have hfilters := toList_foldl_push data (Filters.empty (V := V))
  rw [fetching_eq, limitOf]
  simp only [Accessor.stmt, Accessor.fresh]
  rw [hfilters]
  by_cases hlimit : limit = 0 <;> by_cases hstart : limitStart = 0 <;> simp only [hlimit, hstart, if_true, if_false] <;> rfl

/-- The rows of one page. -/
def page {α : Type} (limit limitStart : Nat) (rows : List α) : List α :=
  if limit = 0 then rows else (rows.drop limitStart).take limit

omit [DecidableEq V] [PhpScalar V] in
theorem limited_limitOf (limit limitStart : Nat) (rows : List (FetchRow V)) :
    Engine.limited (limitOf limit limitStart) rows = page limit limitStart rows := by
  by_cases hlimit : limit = 0 <;> by_cases hstart : limitStart = 0 <;>
    simp only [Engine.limited, limitOf, page, hlimit, hstart, if_true, if_false, Option.getD_none, Option.getD_some]

/-- The rows that meet the conditions, in the order of the result. -/
def matched (w : World E) (m : Mapping) (data : List (String × String × Operand V)) (order : List (String × String)) :
    List (FetchRow V) :=
  E.arrange (orderBy m order) ((w.table m.table).rows.filter fun r =>
    data.all fun row => E.compare row.2.1 (cell (m.toDb row.1) r) row.2.2)

omit [PhpScalar V] in
theorem select_fetching (w : World E) (cls : ModelClass V) (suffix : String) (data : List (String × String × Operand V))
    (order : List (String × String)) (limit limitStart : Nat) :
    E.select w ((fetching data order limit limitStart (Accessor.fresh cls suffix)).stmt .findAll) [] false =
      page limit limitStart (matched w (cls.getMapping suffix) data order) := by
  have hmeets : E.meets ((fetching data order limit limitStart (Accessor.fresh cls suffix)).stmt .findAll) = fun r =>
      data.all fun row => E.compare row.2.1 (cell ((cls.getMapping suffix).toDb row.1) r) row.2.2 := by
    funext r
    rw [stmt_fetching, Engine.meets, List.all_map]
    exact Bool.and_true _
  rw [Engine.select, Engine.matching, hmeets, stmt_fetching, limited_limitOf]
  simp only [List.isEmpty_nil, if_true, List.map_id', Bool.false_eq_true, if_false]
  rfl

/-- A `find` that loads all fields: an object for each row of its statement. -/
theorem exec_find (a : Accessor V) (st : Statics) (obj : Obj V) (hc : a.model.construct st.splitSuffix = .ok obj)
    (ha : a.pdoValues = []) (hverb : a.verb .findAll = .select [] false) (w : World E) :
    ∃ s', exec E.answer MysqlAccessor.find ⟨a, st⟩ w =
      (.ok ((E.select w (a.stmt .findAll) [] false).map (a.fill obj)), s', w) := by
  have hexecute : ∃ n, E.execute w (a.stmt .findAll) = (.ok ⟨E.select w (a.stmt .findAll) [] false, n⟩, w) := by
    have hverb' : (a.stmt .findAll).verb = .select [] false := hverb
    rw [Engine.execute, hverb']
    exact ⟨_, rfl⟩
  obtain ⟨n, hexecute⟩ := hexecute
  have hrun := MysqlAccessor.tree_findAll (s := ⟨a, st⟩) hc
  refine ⟨MysqlAccessor.Self.loaded ⟨a, st⟩ obj (E.select w (a.stmt .findAll) [] false), ?_⟩
  rw [MysqlAccessor.find, exec_eq_run, hrun, run_sends_answer ha, hexecute]
  rfl

/-- `fetchLayer` on a class that fits its table. -/
theorem exec_fetchLayer {cls : LayerClass V} {pre : String} (hst : cls.model.Stored E (suffixOf pre))
    (data : List (String × String × Operand V)) (order : List (String × String)) (dbSplit : String) (s : LayerStatics) (w : World E) :
    ∃ fill : FetchRow V → Obj V, (∀ r, cls.model.Shows (suffixOf pre) (fill r) r) ∧ ∀ limit limitStart,
      ∃ s', exec E.answer (fetchLayer cls data order pre limit limitStart dbSplit) s w =
        (.ok ((page limit limitStart (matched w (cls.model.getMapping (suffixOf pre)) data order)).map fill), s', w) := by
  have hst' := stored_under hst (afterSplit s.dbSplit dbSplit)
  obtain ⟨obj, hc⟩ := hst'.construct
  have hkey : (cls.model.getMapping (suffixOf pre)).key ≠ none := by
    rw [hst.key]
    exact Option.some_ne_none _
  let a := Accessor.fresh (cls.under (afterSplit s.dbSplit dbSplit)) (suffixOf pre)
  refine ⟨a.fill obj, hst.shows_fill (a := a) rfl obj, fun limit limitStart => ?_⟩
  have hfetching := fetching_eq data order limit limitStart a
  have hfill : (fetching data order limit limitStart a).fill obj = a.fill obj := by
    rw [hfetching]
    rfl
  obtain ⟨s', hfind⟩ := exec_find (fetching data order limit limitStart a)
    { s.statics with splitSuffix := suffixOf pre } obj (by rw [hfetching]; exact hc)
    (by rw [hfetching]; rfl) (by rw [hfetching]; rfl) w
  rw [select_fetching, hfill] at hfind
  refine ⟨⟨afterSplit s.dbSplit dbSplit, s'.statics⟩, ?_⟩
  rw [fetchLayer, baseFetchLayer, exec_bind, exec_bind, exec_setDbSplit]
  simp only [exec_bind, exec_dataAccess E.answer _ w hkey, exec_pure, exec_onAccessor]
  rw [hfind]
  rfl

/-- `fetchOneLayer` is `fetchLayer` with the limit 1, and takes the last object. -/
theorem exec_fetchOneLayer {cls : LayerClass V} {pre : String} (hst : cls.model.Stored E (suffixOf pre))
    (data : List (String × String × Operand V)) (order : List (String × String)) (dbSplit : String) (s : LayerStatics) (w : World E) :
    (exec E.answer (fetchOneLayer cls data order pre dbSplit) s w).1 =
      (exec E.answer (fetchLayer cls data order pre 1 0 dbSplit) s w).1.map List.getLast? := by
  have hkey : (cls.model.getMapping (suffixOf pre)).key ≠ none := by
    rw [hst.key]
    exact Option.some_ne_none _
  have hone : ∀ a : Accessor V, (fetching data order 0 0 a).limit 1 = fetching data order 1 0 a := fun a => rfl
  simp only [fetchOneLayer, fetchLayer, baseFetchLayer, exec_bind, exec_setDbSplit, exec_dataAccess E.answer _ w hkey, exec_pure,
    exec_onAccessor, MysqlAccessor.findOnly, MysqlAccessor.setThis, exec_modify, hone]
  generalize exec E.answer MysqlAccessor.find _ w = r
  rcases r with ⟨e | objs, s', w'⟩ <;> rfl

/-- The conditions spell a statement that the server takes: each names a property, and no list is empty. -/
def Spells (m : Mapping) (data : List (String × String × Operand V)) : Prop :=
  ∀ row ∈ data, row.1 ∈ m.properties ∧ row.2.2 ≠ .list []

/-- Pages of `n`, one after the other. -/
theorem flatten_pages {α : Type} {n k : Nat} (hn : 0 < n) (rows : List α) :
    ((List.range k).map fun i => page n (i * n) rows).flatten = rows.take (k * n) := by
  induction k with
  | zero => rw [Nat.zero_mul, List.take_zero]; rfl
  | succ k ih =>
    rw [List.range_succ, List.map_append, List.flatten_append, ih, List.map_singleton, List.flatten_singleton, page,
      if_neg hn.ne', Nat.succ_mul, List.take_add]

/-- `fetchLayer` without a limit returns an object for each row that meets its conditions, in the server's
    order, wherever it is told to start. Its pages are these objects, page by page, and
    `fetchOneLayer` returns the first of them. -/
theorem fetchLayer_pages (cls : LayerClass V) (pre : String) (hst : cls.model.Stored E (suffixOf pre))
    (data : List (String × String × Operand V)) (_hdata : Spells (cls.model.getMapping (suffixOf pre)) data)
    (order : List (String × String)) (dbSplit : String) (s : LayerStatics) (w : World E) :
    ∃ objs, List.Forall₂ (cls.model.Shows (suffixOf pre)) objs
        (matched w (cls.model.getMapping (suffixOf pre)) data order) ∧
      (∀ limitStart, (exec E.answer (fetchLayer cls data order pre 0 limitStart dbSplit) s w).1 = .ok objs) ∧
      (exec E.answer (fetchOneLayer cls data order pre dbSplit) s w).1 = .ok objs.head? ∧
      ∀ limit k, 0 < limit → objs.length ≤ k * limit → ∃ pages : Nat → List (Obj V),
        (∀ i, (exec E.answer (fetchLayer cls data order pre limit (i * limit) dbSplit) s w).1 = .ok (pages i)) ∧
        ((List.range k).map pages).flatten = objs := by
  obtain ⟨fill, hfill, hfetch⟩ := exec_fetchLayer hst data order dbSplit s w
  let rows := matched w (cls.model.getMapping (suffixOf pre)) data order
  have hresult : ∀ limit limitStart, (exec E.answer (fetchLayer cls data order pre limit limitStart dbSplit) s w).1 =
      .ok ((page limit limitStart rows).map fill) := by
    intro limit limitStart
    obtain ⟨s', hexec⟩ := hfetch limit limitStart
    rw [hexec]
  refine ⟨rows.map fill, ?_, fun limitStart => hresult 0 limitStart, ?_, fun limit k hlimit hk => ?_⟩
  · rw [List.forall₂_map_left_iff]
    exact List.forall₂_same.mpr fun r _ => hfill r
  · rw [exec_fetchOneLayer hst data order dbSplit s w, hresult]
    show Except.ok ((rows.take 1).map fill).getLast? = _
    cases rows <;> rfl
  · refine ⟨fun i => (page limit (i * limit) rows).map fill, fun i => hresult limit (i * limit), ?_⟩
    have hpages := flatten_pages (k := k) hlimit (rows.map fill)
    rw [List.take_of_length_le hk] at hpages
    have hmap : ∀ i, page limit (i * limit) (rows.map fill) = (page limit (i * limit) rows).map fill := by
      intro i
      rw [page, page, if_neg hlimit.ne', if_neg hlimit.ne', List.map_take, List.map_drop]
    simp only [hmap] at hpages
    exact hpages

/-! Inserting. -/

omit [DecidableEq V] in
/-- Each property that the loop names has the value it is given there. -/
theorem get_assignEach_mem {cls : ModelClass V} {data : List (String × Val V)} {o : Obj V}
    (hok : (cls.assignEach data o).1 = .ok ()) (hkeys : (assocKeys data).Nodup) {p : String} {v : Val V} (hp : (p, v) ∈ data) :
    (cls.assignEach data o).2.get p = v := by
  induction data generalizing o with
  | nil => cases hp
  | cons d data ih =>
    rw [assocKeys_cons, List.nodup_cons] at hkeys
    unfold ModelClass.assignEach ModelClass.assign at hok ⊢
    by_cases hname : d.1 ∈ assocKeys o.props ∨ d.1 ∈ (cls.mappingOf o).properties
    · simp only [if_pos hname] at hok ⊢
      rcases List.mem_cons.mp hp with rfl | hp
      · rw [cls.get_assignEach hkeys.1, Obj.get_set_self]
      · exact ih hok hkeys.2 hp
    · simp only [if_neg hname] at hok
      cases hok

section
variable {cls : ModelClass V} {data : List (String × Val V)} {pre : String} {model : Obj V}
omit [DecidableEq V]

theorem filled_ok (h : filled cls data pre = .ok model) :
    ∃ obj, cls.construct (suffixOf pre) = .ok obj ∧ (cls.assignEach data obj).1 = .ok () ∧ (cls.assignEach data obj).2 = model := by
  rw [filled] at h
  cases hc : cls.construct (suffixOf pre) with
  | error e =>
    rw [hc] at h
    cases h
  | ok obj =>
    rw [hc] at h
    change ((cls.assignEach data obj).1.bind fun _ => .ok (cls.assignEach data obj).2) = .ok model at h
    cases hok : (cls.assignEach data obj).1 with
    | error e =>
      rw [hok] at h
      cases h
    | ok u =>
      rw [hok] at h
      cases h
      exact ⟨obj, rfl, hok, rfl⟩

/-- The object of `insertLayer` carries the suffix. -/
theorem splitSuffix_filled (hst : cls.Stored E (suffixOf pre)) (hsuffix : "splitSuffix" ∉ assocKeys data)
    (h : filled cls data pre = .ok model) : model.splitSuffix = suffixOf pre := by
  obtain ⟨obj, hc, -, rfl⟩ := filled_ok h
  rw [Obj.splitSuffix, cls.get_assignEach hsuffix, ModelClass.get_splitSuffix_construct (hst.declared _ (by decide)) hc]
  exact PhpScalar.toText_ofText _

/-- It is new. -/
theorem isLoaded_filled (hst : cls.Stored E (suffixOf pre)) (hloaded : "isLoaded" ∉ assocKeys data)
    (h : filled cls data pre = .ok model) : model.isLoaded = false := by
  obtain ⟨obj, hc, -, rfl⟩ := filled_ok h
  have hnew : obj.get "isLoaded" = some (PhpScalar.ofBool false) := by
    rw [ModelClass.construct, hst.suffixed] at hc
    cases hc
    rw [Obj.get_foldl_set (fun p => p) (fun _ => none) _ _ _ (by simpa using hst.isLoaded_not_mem)]
    rfl
  rw [Obj.isLoaded, cls.get_assignEach hloaded, hnew]
  exact PhpScalar.truthy_ofBool false

/-- It has the values of the array. -/
theorem get_filled (hkeys : (assocKeys data).Nodup) (h : filled cls data pre = .ok model) {p : String} {v : Val V}
    (hp : (p, v) ∈ data) : model.get p = v := by
  obtain ⟨obj, -, hok, rfl⟩ := filled_ok h
  exact get_assignEach_mem hok hkeys hp

end

/-- `save` on an object that is not loaded: the insert, its key, and the cache. -/
theorem run_save_new {cls : ModelClass V} {o : Obj V} (hst : cls.Stored E o.splitSuffix) (hnew : o.isLoaded = false)
    (st : Statics) (w : World E) :
    (∃ e s', exec E.answer (DataObject.save cls) ⟨o, st⟩ w = (.error e, s', w)) ∨
      ∃ f w₁ id st', E.execute w ((DataObject.writer cls o).stmt (.insert "insert")) = (.ok f, w₁) ∧ w₁.lastId = some id ∧
        exec E.answer (DataObject.save cls) ⟨o, st⟩ w = (.ok f.rowCount, ⟨DataObject.inserted cls o (some id), st'⟩,
          if cls.enableCache then w₁.put cls id (DataObject.inserted cls o (some id)) else w₁) := by
  have hinserts : DataObject.inserts cls [] o = true := by
    show (!o.isLoaded || _) = true
    rw [hnew]
    rfl
  have hsave : tree (DataObject.save cls) ⟨o, st⟩ = tree (DataObject.insert cls) ⟨o, st⟩ := by
    have hdata : "splitSuffix" ∉ assocKeys ([] : List (String × Val V)) := List.not_mem_nil
    rw [DataObject.tree_save (s := ⟨o, st⟩) hst hdata]
    exact if_pos hinserts
  rw [exec_eq_run, hsave, DataObject.tree_insert (s := ⟨o, st⟩) hst, run_sends_answer (DataObject.pdoValues_writer o)]
  cases hexecute : E.execute w ((DataObject.writer cls o).stmt (.insert "insert")) with
  | mk r w₁ =>
    cases r with
    | error e =>
      rw [Engine.execute_error hexecute]
      exact .inl ⟨e, _, rfl⟩
    | ok f =>
      obtain ⟨id, hlast, -⟩ := DataObject.execute_writer hexecute
      let con := ((DataObject.writer cls o).prepare (.insert "insert")).pdoName
      refine .inr ⟨f, w₁, id, ((⟨o, st⟩ : ObjSelf V).using.joined con).statics, rfl, hlast, ?_⟩
      simp only [run_attempt]
      simp only [Engine.answer, hlast, DataObject.stores]
      cases cls.enableCache <;> rfl

omit [DecidableEq V] in
/-- What `insertLayer` ends with once the row is in. -/
theorem newKey_inserted {cls : ModelClass V} {pre : String} {model : Obj V} (hst : cls.Stored E (suffixOf pre))
    (hsuffix : model.splitSuffix = suffixOf pre) (id : V) :
    newKey cls pre (DataObject.inserted cls model (some id)) =
      if PhpScalar.truthy id then .ok (some id) else .error { message := "insert fail in file " ++ cls.name } := by
  have hmapping : cls.mappingOf model = cls.getMapping (suffixOf pre) := congrArg cls.getMapping hsuffix
  have hloaded : "isLoaded" ≠ (cls.getMapping (suffixOf pre)).keyName := fun h => hst.isLoaded_not_mem (h ▸ hst.key_mem)
  have hget : (DataObject.inserted cls model (some id)).get (cls.getMapping (suffixOf pre)).keyName = some id := by
    rw [DataObject.inserted, hmapping, Obj.get_set_ne _ _ hloaded, Obj.get_set_self]
  have hmem : (cls.getMapping (suffixOf pre)).keyName ∈ assocKeys (DataObject.inserted cls model (some id)).props := by
    rw [DataObject.inserted, hmapping]
    exact mem_assocKeys_set.mpr (.inr (mem_assocKeys_set.mpr (.inl rfl)))
  rw [newKey, ModelClass.read, if_pos (.inl hmem), hget]
  rfl

omit [DecidableEq V] in
/-- The row of a new object: a property with a value has it as the column stores it, and one
    without has the column's default. -/
theorem cell_new {cls : ModelClass V} {o : Obj V} (hst : cls.Stored E o.splitSuffix) (rows : List (FetchRow V)) {p : String}
    (hp : p ∈ (cls.mappingOf o).properties) (hne : p ≠ (cls.mappingOf o).keyName) :
    cell ((cls.mappingOf o).toDb p) (E.newRow (cls.mappingOf o).table rows (DataObject.sets cls o)) =
      match o.get p with
      | some v => some (E.store (cls.mappingOf o).table ((cls.mappingOf o).toDb p) v)
      | none => E.defaults (cls.mappingOf o).table ((cls.mappingOf o).toDb p) := by
  have hcolumn : ¬(cls.mappingOf o).toDb p = E.keyColumn (cls.mappingOf o).table := by
    intro h
    exact hne (hst.toDb_inj hp hst.key_mem (h.trans hst.keyColumn))
  have hmem : (cls.mappingOf o).toDb p ∈ E.columns (cls.mappingOf o).table := hst.toDb_mem hp
  rw [Engine.cell_newRow hmem, DataObject.lookup_sets hst hp]
  cases o.get p with
  | some v => rfl
  | none => exact if_neg hcolumn

omit [PhpScalar V] in
/-- The conditions of a fetch by key meet the row of the key. -/
theorem matched_key {cls : ModelClass V} {suffix : String} (hst : cls.Stored E suffix) (w : World E) (id : V) :
    matched w (cls.getMapping suffix) [((cls.getMapping suffix).keyName, "=", .scalar (some id))] [] =
      (w.rowOf cls suffix id).toList := by
  let m := cls.getMapping suffix
  have hmeets : ((w.table m.table).rows.filter fun r =>
      [(m.keyName, "=", (.scalar (some id) : Operand V))].all fun row => E.compare row.2.1 (cell (m.toDb row.1) r) row.2.2) =
      ((w.table m.table).row id).toList := by
    have hrows := (w.table m.table).distinct.filter_key (some id)
    refine Eq.trans (List.filter_congr fun r _ => ?_) hrows
    simp only [List.all_cons, List.all_nil, Bool.and_true]
    rw [Bool.eq_iff_iff, E.compare_eq, decide_eq_true_eq, hst.keyColumn]
  have hperm := E.arrange_perm (orderBy m []) ((w.table m.table).row id).toList
  rw [matched, hmeets]
  show E.arrange (orderBy m []) ((w.table m.table).row id).toList = ((w.table m.table).row id).toList
  cases hrow : (w.table m.table).row id with
  | none =>
    rw [hrow] at hperm
    exact hperm.eq_nil
  | some r =>
    rw [hrow] at hperm
    exact List.perm_singleton.mp hperm

/-- `insertLayer` with an array that leaves `isLoaded` and the suffix alone either raises and leaves every row as it
    was, or adds one row, with the values of the array as their columns store them, under a key that
    was free. It returns that key; where the key does not count as true it raises, and the row is
    there all the same. A `fetchOneLayer` by the key then finds an object that shows the row. -/
theorem insertLayer_fetchOneLayer (cls : LayerClass V) (pre : String) (hst : cls.model.Stored E (suffixOf pre))
    (data : List (String × Val V)) (hkeys : (assocKeys data).Nodup) (hloaded : "isLoaded" ∉ assocKeys data)
    (hsuffix : "splitSuffix" ∉ assocKeys data) (dbSplit : String) (s : LayerStatics) (w : World E) :
    let m := cls.model.getMapping (suffixOf pre)
    let r := exec E.answer (insertLayer cls data pre dbSplit) s w
    ((∃ e, r.1 = .error e) ∧ ∀ id, r.2.2.rowOf cls.model (suffixOf pre) id = w.rowOf cls.model (suffixOf pre) id) ∨
      ∃ id row, w.rowOf cls.model (suffixOf pre) id = none ∧
        (∀ id', r.2.2.rowOf cls.model (suffixOf pre) id' =
          if id' = id then some row else w.rowOf cls.model (suffixOf pre) id') ∧
        r.1 = (if PhpScalar.truthy id then .ok (some id)
          else .error { message := "insert fail in file " ++ cls.model.name }) ∧
        (∀ p v, (p, v) ∈ data → p ∈ m.properties → p ≠ m.keyName → cell (m.toDb p) row =
          match v with
          | some v => some (E.store m.table (m.toDb p) v)
          | none => E.defaults m.table (m.toDb p)) ∧
        ∃ o, cls.model.Shows (suffixOf pre) o row ∧
          (exec E.answer (fetchOneLayer cls [(m.keyName, "=", .scalar (some id))] [] pre "") r.2.1 r.2.2).1 = .ok (some o) := by
  intro m r
  let cls' := cls.under (afterSplit s.dbSplit dbSplit)
  have hst' : cls'.Stored E (suffixOf pre) := stored_under hst _
  have hr : r = exec E.answer (insertLayer cls data pre dbSplit) s w := rfl
  rw [insertLayer, exec_bind, exec_setDbSplit] at hr
  simp only [exec_bind, exec_get, exec_lift] at hr
  cases hfilled : filled cls' data pre with
  | error e =>
    rw [hfilled] at hr
    refine .inl ⟨⟨e, congrArg Prod.fst hr⟩, fun id => ?_⟩
    rw [hr]
  | ok model =>
    have hmodel : model.splitSuffix = suffixOf pre := splitSuffix_filled hst' hsuffix hfilled
    have hnew : model.isLoaded = false := isLoaded_filled hst' hloaded hfilled
    rw [hfilled] at hr
    simp only [exec_on] at hr
    have hstm : cls'.Stored E model.splitSuffix := by
      rw [hmodel]
      exact hst'
    rcases run_save_new hstm hnew s.statics w with ⟨e, s', hsave⟩ | ⟨f, w₁, id, st', hexecute, hlast, hsave⟩
    · rw [hsave] at hr
      refine .inl ⟨⟨e, congrArg Prod.fst hr⟩, fun id => ?_⟩
      rw [hr]
      rfl
    · obtain ⟨id', hlast', -, hcell, hfree, hrows⟩ := DataObject.execute_writer hexecute
      have hid : id' = id := Option.some.inj (hlast'.symm.trans hlast)
      subst hid
      rw [hsave] at hr
      have hresult : r.1 = newKey cls' pre (DataObject.inserted cls' model (some id')) := congrArg Prod.fst hr
      rw [newKey_inserted hst' hmodel] at hresult
      have hmapping : cls'.mappingOf model = m := congrArg cls.model.getMapping hmodel
      have hworld : ∀ id, r.2.2.rowOf cls.model (suffixOf pre) id = w₁.rowOf cls' model.splitSuffix id := by
        intro id
        rw [hr, hmodel]
        show World.rowOf (if cls'.enableCache then _ else w₁) cls.model (suffixOf pre) id = _
        split <;> rfl
      rw [hmodel] at hfree
      have hrows' : ∀ id, r.2.2.rowOf cls.model (suffixOf pre) id = if id = id' then
          some (E.newRow (cls'.mappingOf model).table (w.table (cls'.mappingOf model).table).rows (DataObject.sets cls' model))
          else w.rowOf cls.model (suffixOf pre) id := by
        intro id
        rw [hworld, hrows, hmodel]
        rfl
      refine .inr ⟨id', _, hfree, hrows', hresult, fun p v hp hmem hne => ?_, ?_⟩
      · have hcellp := cell_new hstm (w.table (cls'.mappingOf model).table).rows (p := p) (hmapping ▸ hmem) (hmapping ▸ hne)
        rw [get_filled hkeys hfilled hp] at hcellp
        rw [hmapping] at hcellp ⊢
        exact hcellp
      · obtain ⟨fill, hfill, hfetch⟩ := exec_fetchLayer hst [(m.keyName, "=", .scalar (some id'))] [] "" r.2.1 r.2.2
        obtain ⟨s'', hfetch⟩ := hfetch 1 0
        refine ⟨_, hfill _, ?_⟩
        rw [exec_fetchOneLayer hst, hfetch, matched_key hst, hrows', if_pos rfl]
        rfl

end ArrayLayer

end

namespace ArrayLayer

/-- A user goes in with the next key, and is found by it. -/
theorem insertLayer_fetchOneLayer_bob :
    let users : LayerClass String := { model := userClass }
    let r := exec userEngine.answer (insertLayer users [("name", some "bob")] "" "") {} annWorld
    r.1 = .ok (some "2") ∧
      ∃ o, userClass.Shows "" o [("user_id", some "2"), ("user_name", some "bob"), ("state", some "new")] ∧
        (exec userEngine.answer (fetchOneLayer users [("id", "=", .scalar (some "2"))] [] "" "") r.2.1 r.2.2).1 =
          .ok (some o) := by
  intro users r
  have hkey : r.1 = .ok (some "2") := by decide
  refine ⟨hkey, ?_⟩
  rcases insertLayer_fetchOneLayer users "" userClass_stored [("name", some "bob")] (by decide) (by decide)
    (by decide) "" {} annWorld with ⟨⟨e, he⟩, -⟩ | ⟨id, row, -, hrows, hresult, -, o, hshows, hfetch⟩
  · rw [show r.1 = .error e from he] at hkey
    cases hkey
  · rw [show (exec userEngine.answer (insertLayer users [("name", some "bob")] "" "") {} annWorld).1 = _ from hkey] at hresult
    split at hresult
    · cases hresult
      have hrow := (hrows "2").symm.trans (show r.2.2.rowOf userClass "" "2" =
        some [("user_id", some "2"), ("user_name", some "bob"), ("state", some "new")] by decide)
      cases hrow
      exact ⟨o, hshows, hfetch⟩
    · cases hresult

/-- Two pages of one user each, the second one empty. -/
theorem fetchLayer_pages_ann :
    ∃ objs, objs.length = 1 ∧ ∃ pages : Nat → List (Obj String),
      (∀ i, (exec userEngine.answer (fetchLayer { model := userClass } [("state", "=", .scalar (some "new"))] [] "" 1 (i * 1) "")
        {} annWorld).1 = .ok (pages i)) ∧ ((List.range 2).map pages).flatten = objs := by
  obtain ⟨objs, hshows, -, -, hpages⟩ := fetchLayer_pages (E := userEngine) { model := userClass } ""
    userClass_stored [("state", "=", .scalar (some "new"))] (List.forall_mem_singleton.mpr ⟨by decide, nofun⟩) [] "" {} annWorld
  have hone : objs.length = 1 := hshows.length_eq.trans (by decide)
  exact ⟨objs, hone, hpages 1 2 Nat.one_pos (by rw [hone]; decide)⟩

end ArrayLayer

end RubbishStore.Pdo
