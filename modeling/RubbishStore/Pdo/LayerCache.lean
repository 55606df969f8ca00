import RubbishStore.Pdo.LayerRows

/- The layer and the row cache. `updateLayer` writes the rows its conditions meet and
   leaves memcache as it is, so the cache stays coherent exactly if it changes no row
   whose object is cached (`coherent_update_iff`). Put among the calls of `RowCache`,
   a run stays coherent throughout exactly if every call finds such a state
   (`run_layer_coherent_iff`). -/
namespace RubbishStore.Pdo
open RubbishStore.Lib
open Method

section
variable {V : Type} [DecidableEq V] {E : Engine V}

/-! An update behind the cache's back. -/

namespace Engine
variable {w w' : World E} {s : Stmt V} {cls : ModelClass V} {suffix : String}

/-- The row after the update. -/
def edited (E : Engine V) (s : Stmt V) (r : FetchRow V) : FetchRow V :=
  if E.meets s r then E.written s.table s.sets r else r

theorem update_rows {f : Fetched V} (h : E.update w s = (.ok f, w')) :
    (w'.table s.table).rows = (w.table s.table).rows.map (E.edited s) ∧ w'.cache = w.cache := by
  unfold update at h
  simp only at h
  split at h
  · next t ht =>
    cases h
    rw [World.table_setTable, Table.ofRows_eq_some ht]
    exact ⟨rfl, rfl⟩
  · cases h

/-- The update changes no property of a row whose object is cached. -/
def Harmless (w : World E) (cls : ModelClass V) (suffix : String) (s : Stmt V) : Prop :=
  ∀ id r, w.rowOf cls suffix id = some r → E.meets s r = true → w.cached cls id ≠ none →
    ∀ p ∈ (cls.getMapping suffix).properties,
      cell ((cls.getMapping suffix).toDb p) (E.written s.table s.sets r) = cell ((cls.getMapping suffix).toDb p) r

omit [DecidableEq V] in
/-- No other row takes the key of a row that was written. -/
theorem eq_of_edited_key {T : Table V (E.columns s.table) (E.keyColumn s.table)} {rows : List (FetchRow V)}
    (hcolumn : E.keyColumn s.table ∈ E.columns s.table) (hdistinct : DistinctKeys (cell (E.keyColumn s.table)) rows)
    (hshaped : ∀ r ∈ rows, assocKeys r = E.columns s.table) (hrows : T.rows = rows.map (E.edited s))
    {r r₀ : FetchRow V} (hr : r ∈ rows) (hr₀ : r₀ ∈ rows) (hmeets : E.meets s r = true)
    (hkey : cell (E.keyColumn s.table) (E.edited s r₀) = cell (E.keyColumn s.table) r) : r₀ = r := by
  have hsame : ∀ r₁ ∈ rows, cell (E.keyColumn s.table) r₁ = cell (E.keyColumn s.table) r → r₁ = r :=
    fun r₁ hr₁ h => List.inj_on_of_nodup_map hdistinct hr₁ hr h
  by_cases hmeets₀ : E.meets s r₀ = true
  · have hedited := T.distinct
    rw [hrows, DistinctKeys, List.map_map] at hedited
    have hmem : ∀ r₁ ∈ rows, E.keyColumn s.table ∈ assocKeys r₁ := fun r₁ hr₁ => hshaped r₁ hr₁ ▸ hcolumn
    cases hset : s.sets.lookup (E.keyColumn s.table) with
    | none =>
      rw [edited, if_pos hmeets₀, cell_written (hmem r₀ hr₀), hset] at hkey
      exact hsame r₀ hr₀ hkey
    | some v =>
      -- both rows are given the same key
      refine List.inj_on_of_nodup_map hedited hr₀ hr ?_
      rw [Function.comp_apply, Function.comp_apply, edited, edited, if_pos hmeets₀, if_pos hmeets,
        cell_written (hmem r₀ hr₀), cell_written (hmem r hr), hset]
  · rw [edited, if_neg hmeets₀] at hkey
    exact hsame r₀ hr₀ hkey

theorem coherent_update_iff (hst : cls.Stored E suffix) (hs : s.table = (cls.getMapping suffix).table)
    (hcoh : w.Coherent cls suffix) {f : Fetched V} (h : E.update w s = (.ok f, w')) :
    w'.Coherent cls suffix ↔ Harmless w cls suffix s := by
  obtain ⟨hrows, hcache⟩ := update_rows h
  have hcached : ∀ id, w'.cached cls id = w.cached cls id := fun id => congrArg (List.lookup _) hcache
  have hcolumn : E.keyColumn s.table ∈ E.columns s.table := by
    rw [hs, hst.keyColumn]
    exact hst.toDb_mem hst.key_mem
  have hrow : ∀ {w : World E} {id r}, w.rowOf cls suffix id = some r ↔
      r ∈ (w.table s.table).rows ∧ cell (E.keyColumn s.table) r = some id := by
    intro w id r
    rw [hs]
    exact Table.row_eq_some
  constructor
  · intro hcoh' id r hr hmeets hhit p hp
    obtain ⟨o, ho⟩ := Option.ne_none_iff_exists'.mp hhit
    obtain ⟨r₁, hr₁, hshows⟩ := hcoh id o ho
    obtain ⟨r', hr', hshows'⟩ := hcoh' id o ((hcached id).trans ho)
    cases hr.symm.trans hr₁
    obtain ⟨hmem', hkey'⟩ := hrow.mp hr'
    obtain ⟨hmem, hkey⟩ := hrow.mp hr
    rw [hrows] at hmem'
    obtain ⟨r₀, hmem₀, rfl⟩ := List.mem_map.mp hmem'
    have hr₀ : r₀ = r := eq_of_edited_key hcolumn (w.table s.table).distinct (w.table s.table).shaped hrows hmem hmem₀ hmeets
      (hkey'.trans hkey.symm)
    have hp' := hshows' p hp
    rw [hr₀, edited, if_pos hmeets] at hp'
    exact hp'.symm.trans (hshows p hp)
  · intro hharmless id o ho
    rw [hcached] at ho
    obtain ⟨r, hr, hshows⟩ := hcoh id o ho
    obtain ⟨hmem, hkey⟩ := hrow.mp hr
    have hcells : ∀ p ∈ (cls.getMapping suffix).properties,
        cell ((cls.getMapping suffix).toDb p) (E.edited s r) = cell ((cls.getMapping suffix).toDb p) r := by
      intro p hp
      rw [edited]
      split
      · next hmeets => exact hharmless id r hr hmeets (by rw [ho]; exact Option.some_ne_none o) p hp
      · rfl
    refine ⟨E.edited s r, hrow.mpr ⟨?_, ?_⟩, fun p hp => (hshows p hp).trans (hcells p hp).symm⟩
    · rw [hrows]
      exact List.mem_map_of_mem hmem
    · have hkeycell := hcells _ hst.key_mem
      rw [← hst.keyColumn, ← hs] at hkeycell
      exact hkeycell.trans hkey

end Engine

variable [PhpScalar V]

namespace ArrayLayer

/-! `updateLayer`. -/

/-- The operator that `filter` gives an operand. -/
def filterOp : Operand V → String
  | .list _ => "in"
  | .scalar _ => "="

/-- The statement of `updateLayer`. -/
def updateStmt (m : Mapping) (filterData : List (String × Operand V)) (updateData : List (String × Val V))
    (primaryId : Operand V) : Stmt V where
  verb := .update
  table := m.table
  sets := (updateData.foldl (fun sets row => assocSet sets row.1 row.2) []).map fun row => (m.toDb row.1, row.2)
  conds := (filterData ++ [(m.keyName, primaryId)]).map fun row => ⟨m.toDb row.1, filterOp row.2, row.2⟩

omit [DecidableEq V] [PhpScalar V] in
theorem filter_ok {a a' : Accessor V} {name : String} {value : Operand V} (h : a.filter name value = .ok a') :
    a' = a.filterByOp name (filterOp value) value := by
  unfold Accessor.filter at h
  split at h
  · cases h
  · cases h
    rfl
  · cases h
    rfl

omit [DecidableEq V] [PhpScalar V] in
theorem filterEach_ok {filterData : List (String × Operand V)} {a a' : Accessor V} (h : filterEach filterData a = .ok a') :
    a' = { a with filters := filterData.foldl (fun f row => f.push row.1 (filterOp row.2) row.2) a.filters } := by
  induction filterData generalizing a with
  | nil =>
    cases h
    rfl
  | cons row filterData ih =>
    cases hfilter : a.filter row.1 row.2 with
    | error e =>
      rw [filterEach, hfilter] at h
      cases h
    | ok a₁ =>
      rw [filterEach, hfilter] at h
      rw [ih h, filter_ok hfilter]
      rfl

omit [DecidableEq V] [PhpScalar V] in
theorem toList_foldl_filter (filterData : List (String × Operand V)) (f : Filters V) :
    (filterData.foldl (fun f row => f.push row.1 (filterOp row.2) row.2) f).toList =
      f.toList ++ filterData.map fun row => (row.1, filterOp row.2, row.2) := by
  induction filterData generalizing f with
  | nil => exact (List.append_nil _).symm
  | cons row filterData ih => rw [List.foldl_cons, ih, Filters.toList_push, List.append_assoc]; rfl

omit [DecidableEq V] [PhpScalar V] in
theorem foldl_setField (updateData : List (String × Val V)) (a : Accessor V) :
    updateData.foldl (fun a row => a.setField row.1 row.2) a =
      { a with setFields := updateData.foldl (fun sets row => assocSet sets row.1 row.2) a.setFields } := by
  induction updateData generalizing a with
  | nil => rfl
  | cons row updateData ih => exact ih (a.setField row.1 row.2)

omit [DecidableEq V] [PhpScalar V] in
/-- The accessor of `updateLayer`, once its filters have gone through. -/
theorem stmt_updating {cls : ModelClass V} {suffix : String} {filterData : List (String × Operand V)}
    (updateData : List (String × Val V)) {primaryId : Operand V} {a a' : Accessor V}
    (hfilters : filterEach filterData (Accessor.fresh cls suffix) = .ok a)
    (hprimary : a.filter (cls.getMapping suffix).keyName primaryId = .ok a') :
    (updateData.foldl (fun a row => a.setField row.1 row.2) a').pdoValues = [] ∧
      (updateData.foldl (fun a row => a.setField row.1 row.2) a').stmt .update =
        updateStmt (cls.getMapping suffix) filterData updateData primaryId := by
  have hlist : a'.filters.toList =
      (filterData ++ [((cls.getMapping suffix).keyName, primaryId)]).map fun row => (row.1, filterOp row.2, row.2) := by
    rw [filter_ok hprimary, filterEach_ok hfilters, Accessor.filterByOp, Filters.toList_push, toList_foldl_filter,
      List.map_append]
    rfl
  have hrest : a' = { Accessor.fresh cls suffix with filters := a'.filters } := by
    rw [filter_ok hprimary, filterEach_ok hfilters]
    rfl
  have hconds : a'.filters.toList.map (Accessor.cond (cls.getMapping suffix)) =
      (updateStmt (cls.getMapping suffix) filterData updateData primaryId).conds := by
    rw [hlist, List.map_map]
    rfl
  rw [foldl_setField, hrest]
  refine ⟨rfl, ?_⟩
  simp only [Accessor.stmt, Terminal.filters, Terminal.assigns, if_true]
  exact congrArg (fun conds => { updateStmt (cls.getMapping suffix) filterData updateData primaryId with conds := conds }) hconds

/-- `updateLayer` raises and changes nothing, or its one statement goes through. -/
theorem exec_updateLayer {cls : LayerClass V} {pre : String} (hst : cls.model.Stored E pre) (hpre : suffixOf pre = pre)
    (filterData : List (String × Operand V)) (updateData : List (String × Val V)) (primaryId : Operand V) (dbSplit : String)
    (s : LayerStatics) (w : World E) :
    let r := exec E.answer (updateLayer cls filterData updateData primaryId pre dbSplit) s w
    (∃ e, r.1 = .error e) ∧ r.2.2 = w ∨
      ∃ f, r.1 = .ok f.rowCount ∧
        E.update w (updateStmt (cls.model.getMapping pre) filterData updateData primaryId) = (.ok f, r.2.2) := by
  intro r
  have hkey : (cls.model.getMapping pre).key ≠ none := by
    rw [hst.key]
    exact Option.some_ne_none _
  let a := Accessor.fresh (cls.under (afterSplit s.dbSplit dbSplit)) pre
  have hr : r = exec E.answer (updateLayer cls filterData updateData primaryId pre dbSplit) s w := rfl
  rw [updateLayer, exec_bind, exec_setDbSplit, hpre] at hr
  simp only [exec_bind, exec_dataAccess E.answer _ w hkey, exec_lift] at hr
  cases hfilters : filterEach filterData a with
  | error e =>
    rw [hfilters] at hr
    rw [hr]
    exact .inl ⟨⟨e, rfl⟩, rfl⟩
  | ok a₁ =>
    rw [hfilters] at hr
    cases hprimary : a₁.filter (cls.model.getMapping pre).keyName primaryId with
    | error e =>
      simp only [hprimary] at hr
      rw [hr]
      exact .inl ⟨⟨e, rfl⟩, rfl⟩
    | ok a₂ =>
      simp only [hprimary, exec_onAccessor] at hr
      let a₃ := updateData.foldl (fun a row => a.setField row.1 row.2) a₂
      have hvalues : a₃.pdoValues = [] := (stmt_updating updateData hfilters hprimary).1
      have hstmt : a₃.stmt .update = updateStmt (cls.model.getMapping pre) filterData updateData primaryId :=
        (stmt_updating updateData hfilters hprimary).2
      have hexec : exec E.answer MysqlAccessor.update ⟨a₃, { s.statics with splitSuffix := pre }⟩ w = _ :=
        exec_eq_run E.answer _ w MysqlAccessor.update
      rw [show tree MysqlAccessor.update (⟨a₃, { s.statics with splitSuffix := pre }⟩ : Self V) = _ from
        MysqlAccessor.tree_executeWrite _ .update, run_sends_answer hvalues, hstmt] at hexec
      change exec E.answer MysqlAccessor.update _ w = _ at hexec
      cases hexecute : E.execute w (updateStmt (cls.model.getMapping pre) filterData updateData primaryId) with
      | mk r' w' =>
        rw [hexecute] at hexec
        rw [hr, hexec]
        cases r' with
        | error e => exact .inl ⟨⟨e, rfl⟩, Engine.execute_error hexecute⟩
        | ok f => exact .inr ⟨f, rfl, hexecute⟩

/-! Runs. -/

/-- What a process does with the rows of one class and prefix, with the layer and without it. -/
inductive LayerOperation (V : Type) where
  | operation (op : Operation V)
  | fetchLayer (data : List (String × String × Operand V)) (order : List (String × String)) (limit limitStart : Nat)
  | insertLayer (data : List (String × Val V))
  | updateLayer (filterData : List (String × Operand V)) (updateData : List (String × Val V)) (primaryId : Operand V)

namespace LayerOperation

def method (cls : LayerClass V) (pre : String) : LayerOperation V → LayerM V Unit
  | .operation op => do
    let s ← Method.get
    let _ ← Method.on LayerStatics.statics (fun s st => { s with statics := st }) (op.method (cls.under s.dbSplit) pre)
  | .fetchLayer data order limit limitStart => do
    let _ ← ArrayLayer.fetchLayer cls data order pre limit limitStart ""
  | .insertLayer data => do let _ ← ArrayLayer.insertLayer cls data pre ""
  | .updateLayer filterData updateData primaryId => do
    let _ ← ArrayLayer.updateLayer cls filterData updateData primaryId pre ""

/-- The operation is about the prefix, and its names are properties; an update sets one at least. -/
def Fits (m : Mapping) (pre : String) : LayerOperation V → Prop
  | .operation op => op.Fits pre
  | .fetchLayer data _ _ _ => Spells m data
  | .insertLayer data => "splitSuffix" ∉ assocKeys data
  | .updateLayer filterData updateData _ =>
    updateData ≠ [] ∧ (∀ row ∈ filterData, row.1 ∈ m.properties) ∧ ∀ row ∈ updateData, row.1 ∈ m.properties

/-- A process and the world, after the operation. -/
def step (cls : LayerClass V) (pre : String) (p : LayerStatics × World E) (op : LayerOperation V) : LayerStatics × World E :=
  (exec E.answer (op.method cls pre) p.1 p.2).2

/-- The operation raises nothing. -/
def Succeeds (cls : LayerClass V) (pre : String) (p : LayerStatics × World E) (op : LayerOperation V) : Prop :=
  (exec E.answer (op.method cls pre) p.1 p.2).1 = .ok ()

/-- What is cached is what the rows then hold. -/
def Takes (cls : LayerClass V) (pre : String) (p : LayerStatics × World E) : LayerOperation V → Prop
  | .operation op => op.Takes (cls.under p.1.dbSplit) pre p.2
  | .fetchLayer _ _ _ _ => True
  | .insertLayer data =>
    ∀ o, filled (cls.under p.1.dbSplit) data pre = .ok o → DataObject.TakesSave (cls.under p.1.dbSplit) p.2 o []
  | .updateLayer filterData updateData primaryId =>
    Engine.Harmless p.2 cls.model pre (updateStmt (cls.model.getMapping pre) filterData updateData primaryId)

variable {cls : LayerClass V} {pre : String} {p : LayerStatics × World E}

/-- A call that gives no `$dbSplit` leaves the field as it is. -/
theorem afterSplit_empty (d : String) : afterSplit d "" = d := if_pos (by decide)

/-- An object of `insertLayer` is saved as any other. -/
theorem coherent_insertLayer_iff (hst : cls.model.Stored E pre) (hpre : suffixOf pre = pre)
    (hcache : cls.model.cacheEnable = true) {data : List (String × Val V)} (hdata : "splitSuffix" ∉ assocKeys data)
    (hok : (insertLayer data).Succeeds cls pre p) (hcoh : p.2.Coherent cls.model pre) :
    ((insertLayer data).step cls pre p).2.Coherent cls.model pre ↔ (insertLayer data).Takes cls pre p := by
  let cls' := cls.under p.1.dbSplit
  have hst' : cls'.Stored E pre := stored_under hst _
  rw [Succeeds, method, exec_bind_pure] at hok
  rw [step, method, exec_bind_pure]
  have hr : exec E.answer (ArrayLayer.insertLayer cls data pre "") p.1 p.2 =
      exec E.answer (ArrayLayer.insertLayer cls data pre "") p.1 p.2 := rfl
  conv_rhs at hr => rw [ArrayLayer.insertLayer, exec_bind, exec_setDbSplit]
  simp only [exec_bind, exec_get, exec_lift, afterSplit_empty] at hr
  cases hfilled : filled cls' data pre with
  | error e =>
    rw [hfilled] at hr
    rw [hr] at hok
    cases hok
  | ok model =>
    have hsuffix : model.splitSuffix = pre := (splitSuffix_filled (hpre.symm ▸ hst') hdata hfilled).trans hpre
    rw [hfilled] at hr
    simp only [exec_on] at hr
    -- where `insertLayer` succeeds, `save` has
    have hthrough : DataObject.Through ((tree (DataObject.save cls') ⟨model, p.1.statics⟩).run E.answer p.2)
        (exec E.answer (ArrayLayer.insertLayer cls data pre "") p.1 p.2).2.2 := by
      have hsave := exec_eq_run E.answer ⟨model, p.1.statics⟩ p.2 (DataObject.save cls')
      rcases hexec : exec E.answer (DataObject.save cls') ⟨model, p.1.statics⟩ p.2 with ⟨e | n, s', w'⟩
      · rw [hexec] at hr
        rw [hr] at hok
        cases hok
      · rw [hexec] at hr hsave
        rw [hr]
        exact ⟨⟨n, (congrArg Prod.fst hsave).symm⟩, (congrArg (fun r => r.2.2) hsave).symm⟩
    have hstm : cls'.Stored E model.splitSuffix := hsuffix.symm ▸ hst'
    have hnone : "splitSuffix" ∉ assocKeys ([] : List (String × Val V)) := List.not_mem_nil
    have hsave := DataObject.coherent_save_iff (s := ⟨model, p.1.statics⟩) hstm hcache hnone (hsuffix.symm ▸ hcoh) hthrough
    rw [hsuffix] at hsave
    refine hsave.trans ⟨fun htakes o ho => ?_, fun htakes => htakes model hfilled⟩
    cases ho.symm.trans hfilled
    exact htakes

/-- An operation that raises nothing keeps the cache coherent exactly when what is cached is what the rows
    then hold. -/
theorem coherent_layer_step_iff (hst : cls.model.Stored E pre) (hpre : suffixOf pre = pre)
    (hcache : cls.model.cacheEnable = true) {op : LayerOperation V} (hfits : op.Fits (cls.model.getMapping pre) pre)
    (hok : op.Succeeds cls pre p) (hcoh : p.2.Coherent cls.model pre) :
    (op.step cls pre p).2.Coherent cls.model pre ↔ op.Takes cls pre p := by
  cases op with
  | operation op =>
    have hst' : (cls.under p.1.dbSplit).Stored E pre := stored_under hst _
    let r := exec E.answer (op.method (cls.under p.1.dbSplit) pre) p.1.statics p.2
    have hexec : exec E.answer ((operation op).method cls pre) p.1 p.2 =
        ((r.1.map fun u => (u, r.2.1)).map fun _ => (), { p.1 with statics := r.2.1 }, r.2.2) := by
      rw [method, exec_bind, exec_get]
      simp only [exec_bind_pure, exec_on]
      rfl
    rw [Succeeds, hexec] at hok
    rw [step, hexec]
    have hsucceeds : op.Succeeds (cls.under p.1.dbSplit) pre (p.1.statics, p.2) := by
      rw [Operation.Succeeds]
      cases hresult : r.1 with
      | ok u => rfl
      | error e =>
        rw [hresult] at hok
        cases hok
    exact Operation.coherent_step_iff (p := (p.1.statics, p.2)) hst' hcache hfits hsucceeds hcoh
  | fetchLayer data order limit limitStart =>
    refine iff_of_true ?_ trivial
    have hst' : cls.model.Stored E (suffixOf pre) := hpre.symm ▸ hst
    obtain ⟨fill, -, hfetch⟩ := exec_fetchLayer hst' data order "" p.1 p.2
    obtain ⟨s', hexec⟩ := hfetch limit limitStart
    rw [step, method, exec_bind_pure, hexec]
    exact hcoh
  | insertLayer data => exact coherent_insertLayer_iff hst hpre hcache hfits hok hcoh
  | updateLayer filterData updateData primaryId =>
    rw [Succeeds, method, exec_bind_pure] at hok
    rw [step, method, exec_bind_pure]
    rcases exec_updateLayer hst hpre filterData updateData primaryId "" p.1 p.2 with
      ⟨⟨e, he⟩, -⟩ | ⟨f, -, hupdate⟩
    · rw [he] at hok
      cases hok
    · exact Engine.coherent_update_iff hst rfl hcoh hupdate

/-- In a run of operations that raise nothing, the row cache is coherent at every point exactly if each
    `updateLayer` meets only rows that it does not change or whose objects are not cached, and each
    insert and update of an object is stored as it is. -/
theorem run_layer_coherent_iff (cls : LayerClass V) (pre : String) (p : LayerStatics × World E) (hst : cls.model.Stored E pre) (hpre : suffixOf pre = pre)
    (hcache : cls.model.cacheEnable = true) (ops : List (LayerOperation V)) (hcoh : p.2.Coherent cls.model pre)
    (hops : AtEach (step cls pre) (fun p op => op.Fits (cls.model.getMapping pre) pre ∧ op.Succeeds cls pre p) p ops) :
    (∀ before, before <+: ops → (run (step cls pre) p before).2.Coherent cls.model pre) ↔
      AtEach (step cls pre) (fun p op => op.Takes cls pre p) p ops :=
  inv_prefixes_iff (I := fun p : LayerStatics × World E => p.2.Coherent cls.model pre)
    (fun _ _ hcoh hop => coherent_layer_step_iff hst hpre hcache hop.1 hop.2 hcoh) hcoh hops

end LayerOperation

end ArrayLayer

end

namespace ArrayLayer.LayerOperation

/-- A user is read by key, and renamed by `updateLayer`: memcache keeps the old name. -/
theorem run_layer_coherent_iff_ann :
    let users : LayerClass String := { model := userClass }
    let ops : List (LayerOperation String) := [.operation (.findByPk "7" true), .updateLayer [] [("name", some "bob")] (.scalar (some "7"))]
    (run (step (E := userEngine) users "") ({}, annWorld) ops).2.cached userClass "7" = some ann ∧
      ¬ AtEach (step (E := userEngine) users "") (fun p op => op.Takes users "" p) ({}, annWorld) ops := by
  intro users ops
  refine ⟨by decide, fun htakes => ?_⟩
  have hops : AtEach (step (E := userEngine) users "") (fun p op =>
      op.Fits (userClass.getMapping "") "" ∧ op.Succeeds users "" p) ({}, annWorld) ops := by
    refine ⟨⟨trivial, ?_⟩, ⟨⟨List.cons_ne_nil _ _, nofun, by decide⟩, ?_⟩, trivial⟩
    · rw [Succeeds]; decide
    · rw [Succeeds]; decide
  have hrun := (run_layer_coherent_iff users "" ({}, annWorld) userClass_stored (by decide) (by decide) ops
    Operation.coherent_annWorld hops).mpr htakes ops List.prefix_rfl
  exact absurd (hrun "7") (by decide)

end ArrayLayer.LayerOperation

end RubbishStore.Pdo
