import RubbishStore.Pdo.Accessor

/- What a terminal call writes: `append_where`, `append_order`, `append_limit`,
   `append_update`, `append_insert` and the field list are the clauses of
   `Accessor.stmt`, so that the call's SQL is the statement's text, and the
   values it appends to `pdo_values` are the statement's (`prepare_eq`). -/
namespace RubbishStore.Pdo
open RubbishStore.Lib

section
variable {V : Type}

theorem render_holeList (vs : List (Val V)) :
    (Template.implode " , " (vs.map fun v => [.hole v])).render =
      implode " , " (List.replicate vs.length "?") := by
  rw [Template.render_implode, List.map_map]
  congr 1
  induction vs with
  | nil => rfl
  | cons v vs ih => simpa [List.replicate_succ] using ih

namespace Accessor

theorem whereStep_eq (m : Mapping) (acc : List String × List (Val V))
    (f : String × String × Operand V) :
    whereStep m acc f = (acc.1 ++ [(cond m f).template.render], acc.2 ++ f.2.2.values) := by
  obtain ⟨name, op, operand⟩ := f
  have hsp : " ? " = " " ++ ("?" ++ " ") := by decide
  cases operand with
  | scalar v =>
    simp only [whereStep, cond, Cond.template, Operand.values, Template.render_text,
      Template.render_hole, Template.render_nil, hsp, String.append_assoc, String.append_empty]
  | list vs =>
    simp only [whereStep, cond, Cond.template, Operand.values, Template.render_text,
      Template.render_append, Template.render_nil, render_holeList, String.append_assoc,
      String.append_empty]

theorem foldl_whereStep (m : Mapping) (fs : List (String × String × Operand V))
    (acc : List String × List (Val V)) :
    fs.foldl (whereStep m) acc =
      (acc.1 ++ fs.map (fun f => (cond m f).template.render),
        acc.2 ++ fs.flatMap (fun f => f.2.2.values)) := by
  induction fs generalizing acc with
  | nil => simp
  | cons f fs ih => simp [ih, whereStep_eq]

/-- `append_where` writes the where clause of any statement with the accessor's
    conditions, and binds their values. -/
theorem appendWhere_eq (a : Accessor V) {s : Stmt V}
    (hc : s.conds = a.filters.toList.map (cond a.mapping))
    (hu : s.userWhere = if a.userFlag then some (a.userWhere, a.userValues) else none) :
    a.appendWhere =
      { a with
        sql := a.sql ++ s.whereTemplate.render
        pdoValues := a.pdoValues ++
          (s.conds.flatMap (fun c => c.operand.values) ++ (s.userWhere.map Prod.snd).getD []) } := by
  have hops : a.filters.ops.isEmpty = a.filters.names.isEmpty := by
    rw [Bool.eq_iff_iff, List.isEmpty_iff_length_eq_zero, List.isEmpty_iff_length_eq_zero,
      a.filters.ops_length]
  have hvals : a.filters.values.isEmpty = a.filters.names.isEmpty := by
    rw [Bool.eq_iff_iff, List.isEmpty_iff_length_eq_zero, List.isEmpty_iff_length_eq_zero,
      a.filters.values_length]
  have hvs : s.conds.flatMap (fun c => c.operand.values) =
      a.filters.toList.flatMap (fun f => f.2.2.values) := by
    rw [hc, List.flatMap_map]
    rfl
  have hclauses : s.clauses.map Template.render =
      a.filters.toList.map (fun f => (cond a.mapping f).template.render) ++
        (if a.userFlag then ["(" ++ a.userWhere ++ ")"] else []) := by
    rw [Stmt.clauses, hc, hu, List.map_append, List.map_map, List.map_map]
    cases a.userFlag <;> simp [userTemplate, String.append_assoc]
  have hnil : s.clauses.isEmpty = (a.filters.names.isEmpty && !a.userFlag) := by
    rw [Stmt.clauses, hc, hu, a.filters.isEmpty_names]
    cases a.filters.toList <;> cases a.userFlag <;> rfl
  unfold appendWhere
  simp only [hops, hvals, Bool.or_self, ← hnil]
  by_cases h : s.clauses.isEmpty = true
  · -- no filter and no where text: nothing is appended
    have hw : s.whereTemplate = [] := by rw [Stmt.whereTemplate, if_pos h]
    have hvals0 : s.conds.flatMap (fun c => c.operand.values) ++ (s.userWhere.map Prod.snd).getD [] =
        [] := by
      rw [hnil, Bool.and_eq_true, Bool.not_eq_true', a.filters.isEmpty_names, List.isEmpty_iff] at h
      rw [hvs, hu, h.1, h.2]
      rfl
    rw [if_pos h, hw, hvals0, Template.render_nil, String.append_empty, List.append_nil]
  · rw [if_neg h, Stmt.whereTemplate, if_neg h, hvs, hu, foldl_whereStep]
    simp only [Template.render_text, Template.render_append, Template.render_nil,
      Template.render_implode, hclauses, String.append_empty, String.append_assoc, List.nil_append]
    cases a.userFlag <;> simp [List.append_assoc]

theorem appendOrder_eq (a : Accessor V) :
    a.appendOrder =
      { a with sql := a.sql ++ orderText (a.sorts.map fun s => (a.mapping.toDb s.1, s.2)) } := by
  unfold appendOrder
  by_cases h : a.sorts.isEmpty = true
  · have ho : orderText (a.sorts.map fun s => (a.mapping.toDb s.1, s.2)) = "" := by
      rw [List.isEmpty_iff.mp h]
      rfl
    rw [if_pos h, ho, String.append_empty]
  · rw [if_neg h]
    cases hs : a.sorts with
    | nil => simp [hs] at h
    | cons s ss => simp [orderText, String.append_assoc, Function.comp_def]

theorem appendLimit_eq (a : Accessor V) :
    a.appendLimit =
      { a with sql := a.sql ++ limitText (a.limitTo.map fun n => (a.offsetFrom, n)) } := by
  unfold appendLimit
  split
  · next h =>
    have hl : limitText (a.limitTo.map fun n => (a.offsetFrom, n)) = "" := by rw [h]; rfl
    rw [hl, String.append_empty]
  · next n h =>
    cases ho : a.offsetFrom <;> simp [h, limitText, String.append_assoc]

theorem appendUpdate_eq (a : Accessor V) {s : Stmt V}
    (hs : s.sets = a.setFields.map fun p => (a.mapping.toDb p.1, p.2)) :
    a.appendUpdate =
      { a with
        sql := a.sql ++ s.setTemplate.render
        pdoValues := a.pdoValues ++ s.sets.map Prod.snd } := by
  have heq : " = ?" = " = " ++ "?" := by decide
  unfold appendUpdate
  simp [Stmt.setTemplate, hs, Template.render_implode, String.append_assoc, Function.comp_def, heq]

theorem appendInsert_eq (a : Accessor V) {s : Stmt V}
    (hs : s.sets = a.setFields.map fun p => (a.mapping.toDb p.1, p.2)) :
    a.appendInsert =
      { a with
        sql := a.sql ++ s.insertTemplate.render
        pdoValues := a.pdoValues ++ s.sets.map Prod.snd } := by
  unfold appendInsert
  simp [Stmt.insertTemplate, hs, Template.render_implode, String.append_assoc, Function.comp_def]

/-- The loop over the fields ends each of them with a comma. -/
theorem foldl_fields (text : String → String) (f : String) (fs : List String) (s : String) :
    (f :: fs).foldl (fun s f => s ++ " " ++ quoted (text f) ++ " ,") s =
      s ++ implode "," ((f :: fs).map fun f => " " ++ quoted (text f) ++ " ") ++ "," := by
  have hcomma : " ," = " " ++ "," := by decide
  induction fs generalizing f s with
  | nil => simp [implode, hcomma, String.append_assoc]
  | cons g fs ih =>
    rw [List.foldl_cons, ih]
    simp only [List.map_cons, implode, hcomma, String.append_assoc]

theorem implode_fields (text : String → String) (f : String) (fs : List String) :
    ∃ t, implode "," ((f :: fs).map fun f => " " ++ quoted (text f) ++ " ") = t ++ " " := by
  induction fs generalizing f with
  | nil => exact ⟨_, rfl⟩
  | cons g fs ih =>
    obtain ⟨t, ht⟩ := ih g
    refine ⟨" " ++ quoted (text f) ++ " " ++ "," ++ t, ?_⟩
    rw [List.map_cons] at ht
    rw [List.map_cons, List.map_cons, implode, ht]
    simp only [String.append_assoc]

/-- In front of the last comma there is a blank, so no other one is taken away. -/
theorem rtrim_comma (t : String) : rtrim (t ++ " " ++ ",") ',' = t ++ " " := by
  have h : (t ++ " " ++ ",").toList = t.toList ++ [' '] ++ [','] := by simp
  rw [rtrim, h, List.rdropWhile_concat_pos _ _ _ (by decide),
    List.rdropWhile_concat_neg _ _ _ (by decide)]
  exact String.toList_inj.mp (by simp)

/-- The loop over `load_fields` leaves one comma, which `rtrim` takes away. -/
theorem fields_eq (a : Accessor V) :
    a.fields = fieldsText (a.loadFields.map a.mapping.toDb) a.isDistinct := by
  unfold fields fieldsText
  cases a.loadFields with
  | nil => rfl
  | cons f fs =>
    obtain ⟨t, ht⟩ := implode_fields a.mapping.toDb f fs
    simp only [List.isEmpty_cons, Bool.false_eq_true, if_false]
    rw [foldl_fields, ht, String.empty_append, rtrim_comma, ← ht, List.map_map]
    rfl

/-- A terminal call up to `execute_internal`: the SQL is the text of its
    statement, whose values are appended to `pdo_values`; `find_all` turns
    `read_only` on. Nothing else changes. -/
theorem prepare_eq (a : Accessor V) (t : Terminal) :
    a.prepare t =
      { a with
        readOnly := if t = .findAll then true else a.readOnly
        sql := (a.stmt t).text
        pdoValues := a.pdoValues ++ (a.stmt t).values } := by
  have hw : ∀ (ro : Bool) (sql : String) (pv : List (Val V)), t.filters = true →
      ({ a with readOnly := ro, sql := sql, pdoValues := pv } : Accessor V).appendWhere =
        { a with
          readOnly := ro
          sql := sql ++ (a.stmt t).whereTemplate.render
          pdoValues := pv ++ ((a.stmt t).conds.flatMap (fun c => c.operand.values) ++
            ((a.stmt t).userWhere.map Prod.snd).getD []) } := by
    intro ro sql pv ht
    refine appendWhere_eq _ ?_ ?_ <;> simp [stmt, ht]
  cases t with
  | findAll =>
    simp only [prepare, startSql, fields_eq]
    rw [hw _ _ _ rfl, appendOrder_eq, appendLimit_eq]
    simp [Stmt.text, Stmt.template, Stmt.values, Stmt.setValues, Stmt.whereValues, stmt, verb,
      Terminal.limits, String.append_assoc]
  | count =>
    simp only [prepare, startSql]
    rw [hw _ _ _ rfl]
    simp [Stmt.text, Stmt.template, Stmt.values, Stmt.setValues, Stmt.whereValues, stmt, verb]
  | sum field | max field | min field =>
    simp only [prepare, prepare.aggregate, startSql]
    rw [hw _ _ _ rfl]
    simp [Stmt.text, Stmt.template, Stmt.values, Stmt.setValues, Stmt.whereValues, stmt, verb,
      String.append_assoc]
  | update =>
    have hup := fun sql => appendUpdate_eq (s := a.stmt .update) (a.startSql sql) rfl
    rw [prepare, hup]
    simp only [startSql]
    rw [hw _ _ _ rfl]
    simp [Stmt.text, Stmt.template, Stmt.values, Stmt.setValues, Stmt.whereValues, stmt, verb,
      String.append_assoc]
  | insert type =>
    have hins := fun sql => appendInsert_eq (s := a.stmt (.insert type)) (a.startSql sql) rfl
    rw [prepare, hins]
    simp [startSql, Stmt.text, Stmt.template, Stmt.values, Stmt.setValues, Stmt.whereValues, stmt, verb,
      String.append_assoc]
  | delete =>
    simp only [prepare, startSql]
    rw [hw _ _ _ rfl, appendLimit_eq]
    simp [Stmt.text, Stmt.template, Stmt.values, Stmt.setValues, Stmt.whereValues, stmt, verb,
      Terminal.limits, String.append_assoc]

end Accessor
end

end RubbishStore.Pdo
