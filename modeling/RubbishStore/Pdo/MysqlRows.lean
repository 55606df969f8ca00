import RubbishStore.Pdo.Mysql

/- Statements about one primary key, as operations on the map `Table.row`. A
   statement is about a key when its only condition is `key = ?`
   (`Stmt.OnKey`); what such an update or delete does to the row of any key is
   `row_update` and `row_delete`, and an insert adds the row of its own key
   (`row_insert`). A statement that raises changes nothing. -/
namespace RubbishStore.Pdo
open RubbishStore.Lib

section
variable {V : Type}

/-- The statement's only condition is that the key is `id`. -/
structure Stmt.OnKey (s : Stmt V) (column : String) (id : V) : Prop where
  conds : s.conds = [⟨column, "=", .scalar (some id)⟩]
  userWhere : s.userWhere = none

variable [DecidableEq V]

namespace Table
variable {columns : List String} {keyColumn : String} {t : Table V columns keyColumn}

theorem ofRows_eq_some {rows : List (FetchRow V)} (h : ofRows rows = some t) : t.rows = rows := by
  unfold ofRows at h
  split at h
  · cases h
    rfl
  · cases h

theorem row_eq_some {id : V} {r : FetchRow V} :
    t.row id = some r ↔ r ∈ t.rows ∧ cell keyColumn r = some id := t.distinct.findKey_eq_some

theorem row_eq_none {id : V} : t.row id = none ↔ ∀ r ∈ t.rows, cell keyColumn r ≠ some id :=
  findKey_eq_none

theorem row_keep (p : FetchRow V → Bool) (id : V) : (t.keep p).row id = (t.row id).filter p :=
  t.distinct.findKey_filter p (some id)

theorem assocKeys_of_row {id : V} {r : FetchRow V} (h : t.row id = some r) :
    assocKeys r = columns := t.shaped r (row_eq_some.mp h).1

end Table

namespace World
variable {E : Engine V} {w : World E} {name : String} {t : Table V (E.columns name) (E.keyColumn name)}

omit [DecidableEq V] in
@[simp] theorem table_setTable : (w.setTable name t).table name = t := Function.update_self _ _ _

end World

namespace Engine
variable {E : Engine V} {w : World E} {s : Stmt V} {id : V}

omit [DecidableEq V] in
theorem matching_perm (w : World E) (s : Stmt V) :
    (E.matching w s).Perm ((w.table s.table).rows.filter (E.meets s)) := E.arrange_perm _ _

theorem meets_onKey (hs : s.OnKey (E.keyColumn s.table) id) (r : FetchRow V) :
    E.meets s r = decide (cell (E.keyColumn s.table) r = some id) := by
  rw [Bool.eq_iff_iff, decide_eq_true_iff]
  simp only [meets, hs.conds, hs.userWhere, List.all_cons, List.all_nil, Option.all_none,
    Bool.and_true]
  exact E.compare_eq _ _

/-- The rows a statement on a key is about: the row of that key. -/
theorem matching_onKey (hs : s.OnKey (E.keyColumn s.table) id) :
    E.matching w s = ((w.table s.table).row id).toList := by
  have hfilter : (w.table s.table).rows.filter (E.meets s) = ((w.table s.table).row id).toList := by
    rw [Table.row, ← (w.table s.table).distinct.filter_key]
    exact List.filter_congr fun r _ => meets_onKey hs r
  have hperm := matching_perm w s
  rw [hfilter] at hperm
  cases hrow : (w.table s.table).row id with
  | none => exact List.perm_nil.mp (by simpa [hrow] using hperm)
  | some r => exact List.perm_singleton.mp (by simpa [hrow] using hperm)

omit [DecidableEq V] in
theorem limited_toList {limit : Option (Option Nat × Nat)} (hl : limit = none ∨ limit = some (none, 1))
    (row : Option (FetchRow V)) : limited limit row.toList = row.toList := by
  obtain rfl | rfl := hl <;> cases row <;> rfl

/-! Selects. -/

/-- A plain select on a key. -/
theorem select_onKey (hs : s.OnKey (E.keyColumn s.table) id)
    (hl : s.limit = none ∨ s.limit = some (none, 1)) :
    E.select w s [] false = ((w.table s.table).row id).toList := by
  simp only [select, matching_onKey hs, List.isEmpty_nil, if_true, Bool.false_eq_true, if_false]
  rw [List.map_id', limited_toList hl]

/-- A plain select on several keys: its rows are those of the keys, and each
    key has one row at most. -/
theorem select_in {ids : List V}
    (hc : s.conds = [⟨E.keyColumn s.table, "in", .list (ids.map some)⟩]) (hu : s.userWhere = none)
    (hl : s.limit = none) :
    DistinctKeys (cell (E.keyColumn s.table)) (E.select w s [] false) ∧
      ∀ id, findKey (cell (E.keyColumn s.table)) (E.select w s [] false) (some id) =
        if id ∈ ids then (w.table s.table).row id else none := by
  have hperm := matching_perm w s
  have hselect : E.select w s [] false = E.matching w s := by
    simp only [select, List.isEmpty_nil, if_true, Bool.false_eq_true, if_false, limited, hl]
    exact List.map_id' _
  have hmeets : ∀ r, E.meets s r = true ↔
      ∃ id ∈ ids, cell (E.keyColumn s.table) r = some id := by
    intro r
    simp only [meets, hc, hu, List.all_cons, List.all_nil, Option.all_none, Bool.and_true,
      E.compare_in, List.mem_map]
    refine ⟨fun h => ?_, fun h => ?_⟩
    · obtain ⟨-, id, hid, hcell⟩ := h
      exact ⟨id, hid, hcell.symm⟩
    · obtain ⟨id, hid, hcell⟩ := h
      exact ⟨by simp [hcell], id, hid, hcell.symm⟩
  have hdistinct := (w.table s.table).distinct.filter (E.meets s)
  rw [hselect]
  refine ⟨hdistinct.perm hperm, fun id => ?_⟩
  rw [hdistinct.findKey_perm hperm, (w.table s.table).distinct.findKey_filter]
  show ((w.table s.table).row id).filter _ = _
  cases hrow : (w.table s.table).row id with
  | none => simp
  | some r =>
    have hcell : cell (E.keyColumn s.table) r = some id := (Table.row_eq_some.mp hrow).2
    have hin : E.meets s r = true ↔ id ∈ ids := by
      rw [hmeets, hcell]
      exact ⟨fun ⟨id', hid', heq⟩ => by cases heq; exact hid', fun hid => ⟨id, hid, rfl⟩⟩
    by_cases hid : id ∈ ids
    · simp [hid, hin.mpr hid]
    · have hno : ¬E.meets s r = true := fun h => hid (hin.mp h)
      simp [hid, hno]

/-! Rows after a write. -/

omit [DecidableEq V] in
theorem assocKeys_written (table : String) (sets : List (String × Val V)) (r : FetchRow V) :
    assocKeys (E.written table sets r) = assocKeys r := by
  rw [assocKeys, written, List.map_map]
  rfl

omit [DecidableEq V] in
/-- A column of a row after `set`: as stored where it is set, as it was where not. -/
theorem cell_written {table column : String} {sets : List (String × Val V)} {r : FetchRow V}
    (hmem : column ∈ assocKeys r) :
    cell column (E.written table sets r) =
      match sets.lookup column with
      | some v => v.map (E.store table column)
      | none => cell column r := by
  induction r with
  | nil => simp [assocKeys] at hmem
  | cons p r ih =>
    obtain ⟨c, v⟩ := p
    simp only [cell, written, List.map_cons] at ih ⊢
    rw [lookup_cons_ite, lookup_cons_ite]
    by_cases hc : c = column
    · subst hc
      rw [if_pos rfl, if_pos rfl]
      cases sets.lookup c <;> rfl
    · rw [assocKeys_cons, List.mem_cons] at hmem
      rw [if_neg hc, if_neg hc]
      exact ih (hmem.resolve_left fun h => hc h.symm)

omit [DecidableEq V] in
/-- A column of a new row. -/
theorem cell_newRow {table column : String} {rows : List (FetchRow V)} {sets : List (String × Val V)}
    (hmem : column ∈ E.columns table) :
    cell column (E.newRow table rows sets) =
      match sets.lookup column with
      | some (some v) => some (E.store table column v)
      | some none =>
        if column = E.keyColumn table then some (E.nextKey table rows) else none
      | none =>
        if column = E.keyColumn table then some (E.nextKey table rows)
        else E.defaults table column := by
  rw [cell, newRow, lookup_map_mk, if_pos hmem]
  rfl

/-! Updates. -/

/-- What an update on a key does: it edits the row of the key, if that leaves
    a table. -/
theorem update_onKey (hs : s.OnKey (E.keyColumn s.table) id) :
    ∃ n, E.update w s =
      match Table.ofRows (editKey (cell (E.keyColumn s.table)) (some id)
        (E.written s.table s.sets) (w.table s.table).rows) with
      | some t => (.ok { rowCount := n }, w.setTable s.table t)
      | none => (.error duplicateEntry, w) := by
  refine ⟨(w.table s.table).rows.countP fun r =>
    (if cell (E.keyColumn s.table) r = some id then E.written s.table s.sets r else r) ≠ r, ?_⟩
  simp only [update, meets_onKey hs, decide_eq_true_eq]
  rfl

/-- A statement that leaves the key alone is not refused. -/
theorem update_ok (hs : s.OnKey (E.keyColumn s.table) id)
    (hkey : ∀ r, (w.table s.table).row id = some r →
      cell (E.keyColumn s.table) (E.written s.table s.sets r) = some id) :
    ∃ n t, E.update w s = (.ok { rowCount := n }, w.setTable s.table t) ∧
      ∀ id', t.row id' =
        if id' = id then ((w.table s.table).row id).map (E.written s.table s.sets)
        else (w.table s.table).row id' := by
  obtain ⟨n, hupdate⟩ := update_onKey (w := w) hs
  have hdistinct := (w.table s.table).distinct
  have hrows : ∃ t : Table V (E.columns s.table) (E.keyColumn s.table),
      Table.ofRows (editKey (cell (E.keyColumn s.table)) (some id) (E.written s.table s.sets)
        (w.table s.table).rows) = some t := by
    unfold Table.ofRows
    refine ⟨_, dif_pos ⟨?_, hdistinct.editKey hkey, ?_⟩⟩
    · intro r' hr'
      obtain ⟨r, hr, rfl⟩ := List.mem_map.mp hr'
      have hshaped := (w.table s.table).shaped r hr
      split
      · rw [assocKeys_written, hshaped]
      · exact hshaped
    · intro r' hr'
      obtain ⟨r, hr, rfl⟩ := List.mem_map.mp hr'
      rw [key_editKey hdistinct hkey r hr]
      exact (w.table s.table).keyed r hr
  obtain ⟨t, ht⟩ := hrows
  refine ⟨n, t, by rw [hupdate, ht], fun id' => ?_⟩
  rw [Table.row, Table.ofRows_eq_some ht, findKey_editKey hdistinct hkey]
  simp only [Option.some.injEq]
  rfl

/-- An update that went through and changed the key leaves no row at the old one. -/
theorem row_update_moved (hs : s.OnKey (E.keyColumn s.table) id)
    (hkey : ∀ r, (w.table s.table).row id = some r →
      cell (E.keyColumn s.table) (E.written s.table s.sets r) ≠ some id)
    {f : Fetched V} {w' : World E} (h : E.update w s = (.ok f, w')) :
    (w'.table s.table).row id = none ∧ w'.cache = w.cache := by
  obtain ⟨n, hupdate⟩ := update_onKey (w := w) hs
  rw [hupdate] at h
  split at h
  · next t ht =>
    cases h
    refine ⟨?_, rfl⟩
    rw [World.table_setTable, Table.row, Table.ofRows_eq_some ht]
    exact findKey_editKey_moved (w.table s.table).distinct hkey
  · cases h

/-! Deletes. -/

/-- A delete on a key removes its row, and no other. -/
theorem delete_onKey (hs : s.OnKey (E.keyColumn s.table) id) (hl : s.limit = none) :
    ∃ n t, E.delete w s = (.ok { rowCount := n }, w.setTable s.table t) ∧
      ∀ id', t.row id' = if id' = id then none else (w.table s.table).row id' := by
  refine ⟨_, _, rfl, fun id' => ?_⟩
  rw [Table.row_keep, matching_onKey hs, hl]
  cases hrow' : (w.table s.table).row id' with
  | none => simp
  | some r' =>
    have hcell' := (Table.row_eq_some.mp hrow').2
    by_cases hid : id' = id
    · subst hid
      simp [hrow', limited]
    · have hnot : ∀ r, (w.table s.table).row id = some r → r' ≠ r := by
        rintro r hrow rfl
        rw [(Table.row_eq_some.mp hrow).2] at hcell'
        cases hcell'
        exact hid rfl
      cases hrow : (w.table s.table).row id with
      | none => simp [hid, limited]
      | some r => simp [hid, limited, hnot r hrow]

/-! Inserts. -/

/-- An insert that went through added its row, where there was none. -/
theorem row_insert {f : Fetched V} {w' : World E} (h : E.insert w s "insert" = (.ok f, w')) :
    ∃ id, w'.lastId = some id ∧ w'.cache = w.cache ∧
      cell (E.keyColumn s.table) (E.newRow s.table (w.table s.table).rows s.sets) = some id ∧
      (w.table s.table).row id = none ∧
      ∀ id', (w'.table s.table).row id' =
        if id' = id then some (E.newRow s.table (w.table s.table).rows s.sets)
        else (w.table s.table).row id' := by
  unfold insert at h
  simp only [true_or, if_true, String.reduceEq, if_false] at h
  set r := E.newRow s.table (w.table s.table).rows s.sets with hr
  split at h
  · next t ht =>
    cases h
    have hrows := Table.ofRows_eq_some ht
    have hkeyed := t.keyed r (by rw [hrows]; simp)
    obtain ⟨id, hid⟩ := Option.ne_none_iff_exists'.mp hkeyed
    -- the new key was not there: the keys after the insert are distinct
    have hnew : (w.table s.table).row id = none := by
      rw [Table.row_eq_none]
      intro r' hr' hcell
      have hdistinct := t.distinct
      rw [hrows, DistinctKeys, List.map_append, List.nodup_append] at hdistinct
      exact hdistinct.2.2 _ (List.mem_map_of_mem hr') _ (List.mem_map_of_mem (by simp))
        (hcell.trans hid.symm)
    refine ⟨id, hid, rfl, hid, hnew, fun id' => ?_⟩
    show ((w.setTable s.table t).table s.table).row id' = _
    rw [World.table_setTable, Table.row, hrows, findKey_append_singleton, hid]
    show ((w.table s.table).row id').or _ = _
    by_cases hid' : id' = id
    · subst hid'
      simp [hnew]
    · have hne : ¬id = id' := fun e => hid' e.symm
      simp [hid', hne]
  · cases h

/-- A statement that raises changes nothing. -/
theorem execute_error [PhpScalar V] {e : PhpException} {w' : World E}
    (h : E.execute w s = (.error e, w')) : w' = w := by
  unfold execute at h
  cases hverb : s.verb with
  | select fields distinct | count | aggregate fn column =>
    simp only [hverb] at h
    cases h
  | update =>
    simp only [hverb, update] at h
    split at h
    · cases h
    · cases h
      rfl
  | insert type =>
    simp only [hverb, insert] at h
    split at h
    · split at h
      · cases h
      · cases h
        rfl
    · cases h
      rfl
  | delete =>
    simp only [hverb, delete] at h
    cases h

/-- The server knows nothing of the row cache. -/
theorem cache_execute [PhpScalar V] (w : World E) (s : Stmt V) :
    (E.execute w s).2.cache = w.cache := by
  unfold execute
  cases s.verb with
  | select fields distinct => rfl
  | count => rfl
  | aggregate fn column => rfl
  | update =>
    show (E.update w s).2.cache = _
    unfold update
    simp only
    split <;> rfl
  | insert type =>
    show (E.insert w s type).2.cache = _
    unfold insert
    simp only
    split
    · split <;> rfl
    · rfl
  | delete => rfl

end Engine

end

end RubbishStore.Pdo
