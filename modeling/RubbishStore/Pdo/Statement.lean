import RubbishStore.Lib.Template

/- The statements the accessor sends, as MySQL reads them: a verb, a table,
   assignments, conditions joined by `and`, the caller's own where text, an
   order and a limit. `Stmt.template` spells a statement with its values in
   place, `Stmt.text` is its SQL and `Stmt.values` the values it is meant to
   bind. Where the names hold no `?` and the caller's where text has as many
   `?`s as values, text and values are those of a clean template
   (`Stmt.clean_template`, `Stmt.holes_template`); `Stmt.marks_text` counts the
   placeholders of any statement. -/
namespace RubbishStore.Pdo
open RubbishStore.Lib

/-- A PHP scalar or null; a column value or NULL. -/
abbrev Val (V : Type) : Type := Option V

instance {V : Type} [DecidableEq V] : LawfulBEq (Val V) := inferInstance

/-- The value of a filter: a scalar, or a list. -/
inductive Operand (V : Type) where
  | scalar (v : Val V)
  | list (vs : List (Val V))
  deriving DecidableEq, Repr

/-- The values a filter binds. -/
def Operand.values {V : Type} : Operand V → List (Val V)
  | .scalar v => [v]
  | .list vs => vs

/-- One condition of a where clause. -/
structure Cond (V : Type) where
  column : String
  op : String
  operand : Operand V
  deriving DecidableEq, Repr

inductive Verb where
  | select (fields : List String) (distinct : Bool)
  | count
  | aggregate (fn column : String)
  | update
  | insert (type : String)
  | delete
  deriving DecidableEq, Repr

/-- A statement that changes the table. -/
def Verb.writes : Verb → Bool
  | .update | .insert _ | .delete => true
  | .select _ _ | .count | .aggregate _ _ => false

structure Stmt (V : Type) where
  verb : Verb
  table : String
  sets : List (String × Val V) := []
  conds : List (Cond V) := []
  userWhere : Option (String × List (Val V)) := none
  orderBy : List (String × String) := []
  limit : Option (Option Nat × Nat) := none
  deriving DecidableEq, Repr

/-- A name between backquotes. -/
def quoted (name : String) : String := "`" ++ name ++ "`"

/-- The field list of a `select`: the named columns, or all. -/
def fieldsText (fields : List String) (distinct : Bool) : String :=
  let names := if fields.isEmpty then "*" else implode "," (fields.map fun f => " " ++ quoted f ++ " ")
  if distinct then "distinct " ++ names else names

def orderText : List (String × String) → String
  | [] => ""
  | s :: ss => "order by " ++ implode " , " ((s :: ss).map fun (c, t) => quoted c ++ " " ++ t) ++ " "

def limitText : Option (Option Nat × Nat) → String
  | none => ""
  | some (none, n) => "limit " ++ toString n
  | some (some o, n) => "limit " ++ toString o ++ "," ++ toString n

section
variable {V : Type}

def Cond.template (c : Cond V) : Template (Val V) :=
  match c.operand with
  | .scalar v => [.text (quoted c.column ++ " " ++ c.op ++ " "), .hole v, .text " "]
  | .list vs =>
    .text (quoted c.column ++ " " ++ c.op ++ " ( ") ::
      (Template.implode " , " (vs.map fun v => [.hole v]) ++ [.text " ) "])

/-- The caller's where text, in parentheses. -/
def userTemplate (u : String × List (Val V)) : Template (Val V) :=
  .text "(" :: (Template.annotate u.1 u.2 ++ [.text ")"])

namespace Stmt

/-- The clauses the where joins by `and`. -/
def clauses (s : Stmt V) : List (Template (Val V)) :=
  s.conds.map Cond.template ++ (s.userWhere.map userTemplate).toList

def whereTemplate (s : Stmt V) : Template (Val V) :=
  if s.clauses.isEmpty then []
  else .text "where " :: (Template.implode " and " s.clauses ++ [.text " "])

/-- `set` with its assignments. -/
def setTemplate (s : Stmt V) : Template (Val V) :=
  .text "set " ::
    (Template.implode " , " (s.sets.map fun p => [.text (quoted p.1 ++ " = "), .hole p.2]) ++
      [.text " "])

/-- The column list of an `insert`, and its values. -/
def insertTemplate (s : Stmt V) : Template (Val V) :=
  .text ("( " ++ implode " , " (s.sets.map fun p => quoted p.1) ++ " ) values ( ") ::
    (Template.implode " , " (s.sets.map fun p => [.hole p.2]) ++ [.text " ) "])

def template (s : Stmt V) : Template (Val V) :=
  match s.verb with
  | .select fields distinct =>
    .text ("select " ++ fieldsText fields distinct ++ " from " ++ quoted s.table ++ " ") ::
      (s.whereTemplate ++ [.text (orderText s.orderBy), .text (limitText s.limit)])
  | .count => .text ("select count(1) from " ++ quoted s.table ++ " ") :: s.whereTemplate
  | .aggregate fn column =>
    .text ("select " ++ fn ++ "(" ++ quoted column ++ ") from " ++ quoted s.table ++ " ") ::
      s.whereTemplate
  | .update => .text ("update " ++ quoted s.table ++ " ") :: (s.setTemplate ++ s.whereTemplate)
  | .insert type => .text (type ++ " into " ++ quoted s.table ++ " ") :: s.insertTemplate
  | .delete =>
    .text ("delete from " ++ quoted s.table ++ " ") :: (s.whereTemplate ++ [.text (limitText s.limit)])

/-- The SQL text. -/
def text (s : Stmt V) : String := s.template.render

def setValues (s : Stmt V) : List (Val V) :=
  match s.verb with
  | .update | .insert _ => s.sets.map Prod.snd
  | .select _ _ | .count | .aggregate _ _ | .delete => []

def whereValues (s : Stmt V) : List (Val V) :=
  match s.verb with
  | .insert _ => []
  | .select _ _ | .count | .aggregate _ _ | .update | .delete =>
    s.conds.flatMap (fun c => c.operand.values) ++ (s.userWhere.map Prod.snd).getD []

/-- The values the statement is meant to bind: assignments, then conditions in
    their order, then those of the caller's where text. -/
def values (s : Stmt V) : List (Val V) := s.setValues ++ s.whereValues

/-- The placeholders hidden in the names of the conditions. -/
def condMarks (s : Stmt V) : Nat := (s.conds.map fun c => marks c.column + marks c.op).sum

def setMarks (s : Stmt V) : Nat := (s.sets.map fun p => marks p.1).sum

def orderMarks (s : Stmt V) : Nat := (s.orderBy.map fun p => marks p.1 + marks p.2).sum

/-- The `?`s in the table, column, operator and keyword texts the statement uses. -/
def nameMarks (s : Stmt V) : Nat :=
  marks s.table +
    match s.verb with
    | .select fields _ => (fields.map marks).sum + s.condMarks + s.orderMarks
    | .count => s.condMarks
    | .aggregate fn column => marks fn + marks column + s.condMarks
    | .update => s.setMarks + s.condMarks
    | .insert type => marks type + s.setMarks
    | .delete => s.condMarks

/-- The `?`s of the caller's where text, where the statement uses it. -/
def userMarks (s : Stmt V) : Nat :=
  match s.verb with
  | .insert _ => 0
  | .select _ _ | .count | .aggregate _ _ | .update | .delete =>
    (s.userWhere.map fun u => marks u.1).getD 0

/-- The values of the caller's where text, where the statement uses it. -/
def userCount (s : Stmt V) : Nat :=
  match s.verb with
  | .insert _ => 0
  | .select _ _ | .count | .aggregate _ _ | .update | .delete =>
    (s.userWhere.map fun u => u.2.length).getD 0

end Stmt

/-! Counting placeholders. -/

@[simp] theorem marks_quoted (name : String) : marks (quoted name) = marks name := by
  simp (disch := decide) only [quoted, marks_append, marks_lit, Nat.zero_add, Nat.add_zero]

theorem marks_fieldsText (fields : List String) (distinct : Bool) :
    marks (fieldsText fields distinct) = (fields.map marks).sum := by
  have hnames : marks (if fields.isEmpty then "*"
      else implode "," (fields.map fun f => " " ++ quoted f ++ " ")) = (fields.map marks).sum := by
    cases fields with
    | nil => decide
    | cons f fs =>
      rw [List.isEmpty_cons, if_neg Bool.false_ne_true, marks_implode (by decide), List.map_map]
      congr 1
      refine List.map_congr_left fun g _ => ?_
      simp (disch := decide) only [Function.comp, marks_append, marks_quoted, marks_lit,
        Nat.zero_add, Nat.add_zero]
  cases distinct
  · exact hnames
  · simp (disch := decide) only [fieldsText, if_true, marks_append, marks_lit, hnames, Nat.zero_add]

theorem marks_orderText (ss : List (String × String)) :
    marks (orderText ss) = (ss.map fun p => marks p.1 + marks p.2).sum := by
  cases ss with
  | nil => rfl
  | cons p ps =>
    simp (disch := decide) only [orderText, marks_append, marks_lit, Nat.zero_add, Nat.add_zero]
    rw [marks_implode (by decide), List.map_map]
    congr 1
    refine List.map_congr_left fun q _ => ?_
    simp (disch := decide) only [Function.comp, marks_append, marks_quoted, marks_lit, Nat.add_zero]

theorem marks_limitText (l : Option (Option Nat × Nat)) : marks (limitText l) = 0 := by
  rcases l with _ | ⟨_ | o, n⟩ <;>
    simp (disch := decide) only [limitText, marks_append, marks_lit, marks_toString, Nat.add_zero]

/-- A separated list of holes is clean. -/
theorem clean_holeList (vs : List (Val V)) :
    Template.Clean (Template.implode " , " (vs.map fun v => [.hole v])) := by
  refine Template.clean_implode (by decide) fun t ht => ?_
  obtain ⟨v, _, rfl⟩ := List.mem_map.mp ht
  exact Template.clean_hole.mpr Template.clean_nil

theorem holes_holeList (vs : List (Val V)) :
    Template.holes (Template.implode " , " (vs.map fun v => [.hole v])) = vs := by
  rw [Template.holes_implode, List.flatMap_map]
  simp

theorem marks_holeList (vs : List (Val V)) :
    marks (Template.implode " , " (vs.map fun v => [.hole v])).render = vs.length := by
  rw [(clean_holeList vs).marks_render, holes_holeList]

theorem marks_condTemplate (c : Cond V) :
    marks c.template.render = marks c.column + marks c.op + c.operand.values.length := by
  obtain ⟨column, op, operand⟩ := c
  cases operand with
  | scalar v =>
    simp (disch := decide) only [Cond.template, Operand.values, Template.render_text,
      Template.render_hole, Template.render_nil, marks_append, marks_quoted, marks_question, marks_lit,
      List.length_singleton]
    omega
  | list vs =>
    simp (disch := decide) only [Cond.template, Operand.values, Template.render_text,
      Template.render_append, Template.render_nil, marks_append, marks_quoted, marks_holeList,
      marks_lit]
    omega

theorem marks_userTemplate (u : String × List (Val V)) :
    marks (userTemplate u).render = marks u.1 := by
  simp (disch := decide) only [userTemplate, Template.render_text, Template.render_append,
    Template.render_nil, Template.render_annotate, marks_append, marks_lit, Nat.zero_add, Nat.add_zero]

namespace Stmt

theorem marks_clauses (s : Stmt V) :
    (s.clauses.map fun t => marks t.render).sum =
      s.condMarks + (s.conds.flatMap fun c => c.operand.values).length +
        (s.userWhere.map fun u => marks u.1).getD 0 := by
  have hconds : ((s.conds.map Cond.template).map fun t => marks t.render).sum =
      s.condMarks + (s.conds.flatMap fun c => c.operand.values).length := by
    simp only [condMarks]
    induction s.conds with
    | nil => rfl
    | cons c cs ih =>
      simp only [List.map_cons, List.sum_cons, List.flatMap_cons, List.length_append,
        marks_condTemplate, ih]
      omega
  rw [clauses, List.map_append, List.sum_append, hconds]
  cases s.userWhere <;> simp [marks_userTemplate]

theorem marks_whereTemplate (s : Stmt V) :
    marks s.whereTemplate.render =
      s.condMarks + (s.conds.flatMap fun c => c.operand.values).length +
        (s.userWhere.map fun u => marks u.1).getD 0 := by
  rw [← marks_clauses]
  unfold whereTemplate
  split
  · next he => rw [List.isEmpty_iff.mp he]; rfl
  · simp (disch := decide) only [Template.render_text, Template.render_append, Template.render_nil,
      marks_append, marks_lit, Template.render_implode, Nat.zero_add, Nat.add_zero]
    rw [marks_implode (by decide), List.map_map]
    rfl

theorem marks_setTemplate (s : Stmt V) :
    marks s.setTemplate.render = s.setMarks + s.sets.length := by
  simp (disch := decide) only [setTemplate, Template.render_text, Template.render_append,
    Template.render_nil, marks_append, marks_lit, Template.render_implode, Nat.zero_add, Nat.add_zero]
  rw [marks_implode (by decide), setMarks]
  induction s.sets with
  | nil => rfl
  | cons p ps ih =>
    simp (disch := decide) only [List.map_cons, List.sum_cons, List.length_cons, Template.render_text,
      Template.render_hole, Template.render_nil, marks_append, marks_quoted, marks_question,
      marks_lit] at ih ⊢
    omega

theorem marks_insertTemplate (s : Stmt V) :
    marks s.insertTemplate.render = s.setMarks + s.sets.length := by
  have hholes := marks_holeList (s.sets.map Prod.snd)
  rw [List.map_map, List.length_map] at hholes
  have hcols : (s.sets.map (marks ∘ fun p => quoted p.1)).sum = s.setMarks :=
    congrArg List.sum (List.map_congr_left fun p _ => by simp)
  simp (disch := decide) only [insertTemplate, Template.render_text, Template.render_append,
    Template.render_nil, marks_append, marks_lit, Nat.zero_add, Nat.add_zero]
  rw [marks_implode (by decide), List.map_map, hcols]
  exact congrArg (s.setMarks + ·) hholes

/-- The placeholders of a statement's text: those of its names, one for each
    value of an assignment or a filter, and those of the caller's where text. -/
theorem marks_text (s : Stmt V) :
    marks s.text + s.userCount = s.nameMarks + s.values.length + s.userMarks := by
  have hu : ((s.userWhere.map Prod.snd).getD []).length =
      (s.userWhere.map fun u => u.2.length).getD 0 := by
    cases s.userWhere <;> rfl
  cases hv : s.verb <;>
    simp (disch := decide) only [text, template, hv, Template.render_text, Template.render_append,
      Template.render_nil, marks_append, marks_quoted, marks_fieldsText, marks_orderText,
      marks_limitText, marks_lit, marks_whereTemplate, marks_setTemplate, marks_insertTemplate,
      nameMarks, userMarks, userCount, values, setValues, whereValues, orderMarks, List.length_append,
      List.length_map, List.length_nil, hu] <;>
    omega

/-! A statement as a clean template. -/

theorem clean_condTemplate {c : Cond V} (h : marks c.column + marks c.op = 0) :
    Template.Clean c.template := by
  obtain ⟨column, op, operand⟩ := c
  obtain ⟨hcol, hop⟩ := Nat.add_eq_zero_iff.mp h
  simp only at hcol hop
  cases operand with
  | scalar v =>
    simp (disch := decide) only [Cond.template, Template.clean_text, Template.clean_hole,
      Template.clean_nil, marks_append, marks_quoted, hcol, hop, marks_lit, and_true, Nat.add_zero]
  | list vs =>
    simp (disch := decide) only [Cond.template, Template.clean_text, Template.clean_append,
      clean_holeList, Template.clean_nil, marks_append, marks_quoted, hcol, hop, marks_lit, and_true,
      Nat.add_zero]

theorem holes_condTemplate (c : Cond V) : Template.holes c.template = c.operand.values := by
  obtain ⟨column, op, operand⟩ := c
  cases operand <;> simp [Cond.template, Operand.values, holes_holeList]

theorem clean_userTemplate {u : String × List (Val V)} (h : marks u.1 = u.2.length) :
    Template.Clean (userTemplate u) := by
  simp (disch := decide) only [userTemplate, Template.clean_text, Template.clean_append,
    Template.clean_annotate h, Template.clean_nil, marks_lit, and_true]

theorem holes_userTemplate {u : String × List (Val V)} (h : marks u.1 = u.2.length) :
    Template.holes (userTemplate u) = u.2 := by
  simp [userTemplate, Template.holes_annotate h]

/-- The caller's where text, if the statement has one, has a `?` for each of
    its values. -/
def Balanced (s : Stmt V) : Prop := ∀ u ∈ s.userWhere, marks u.1 = u.2.length

theorem clean_whereTemplate {s : Stmt V} (hc : s.condMarks = 0) (hu : s.Balanced) :
    Template.Clean s.whereTemplate := by
  have hclauses : ∀ t ∈ s.clauses, Template.Clean t := by
    intro t ht
    rcases List.mem_append.mp ht with ht | ht
    · obtain ⟨c, hmem, rfl⟩ := List.mem_map.mp ht
      exact clean_condTemplate (List.sum_eq_zero_iff_forall_eq_nat.mp hc _ (List.mem_map_of_mem hmem))
    · obtain ⟨u, hmem, rfl⟩ := Option.map_eq_some_iff.mp (Option.mem_toList.mp ht)
      exact clean_userTemplate (hu u hmem)
  unfold whereTemplate
  split
  · exact Template.clean_nil
  · simp (disch := decide) only [Template.clean_text, Template.clean_append, Template.clean_nil,
      marks_lit, and_true, true_and]
    exact Template.clean_implode (by decide) hclauses

theorem holes_whereTemplate {s : Stmt V} (hu : s.Balanced) :
    Template.holes s.whereTemplate =
      s.conds.flatMap (fun c => c.operand.values) ++ (s.userWhere.map Prod.snd).getD [] := by
  have hclauses : s.clauses.flatMap Template.holes =
      s.conds.flatMap (fun c => c.operand.values) ++ (s.userWhere.map Prod.snd).getD [] := by
    rw [clauses, List.flatMap_append, List.flatMap_map]
    congr 1
    · exact List.flatMap_congr fun c _ => holes_condTemplate c
    · cases hw : s.userWhere with
      | none => rfl
      | some u => simp [holes_userTemplate (hu u hw)]
  unfold whereTemplate
  split
  · next he => rw [← hclauses, List.isEmpty_iff.mp he]; rfl
  · simp [Template.holes_implode, hclauses]

theorem clean_setTemplate {s : Stmt V} (h : s.setMarks = 0) : Template.Clean s.setTemplate := by
  simp (disch := decide) only [setTemplate, Template.clean_text, Template.clean_append,
    Template.clean_nil, marks_lit, and_true, true_and]
  refine Template.clean_implode (by decide) fun t ht => ?_
  obtain ⟨p, hp, rfl⟩ := List.mem_map.mp ht
  have hp0 : marks p.1 = 0 := List.sum_eq_zero_iff_forall_eq_nat.mp h _ (List.mem_map_of_mem hp)
  simp (disch := decide) only [Template.clean_text, Template.clean_hole, Template.clean_nil,
    marks_append, marks_quoted, hp0, marks_lit, and_true]

theorem holes_setTemplate (s : Stmt V) : Template.holes s.setTemplate = s.sets.map Prod.snd := by
  simp [setTemplate, Template.holes_implode, List.flatMap_map, ← List.map_eq_flatMap]

theorem clean_insertTemplate {s : Stmt V} (h : s.setMarks = 0) :
    Template.Clean s.insertTemplate := by
  have hcols : (s.sets.map (marks ∘ fun p => quoted p.1)).sum = 0 := by
    rw [← h]
    exact congrArg List.sum (List.map_congr_left fun p _ => by simp)
  have hholes := clean_holeList (s.sets.map Prod.snd)
  rw [List.map_map] at hholes
  simp (disch := decide) only [insertTemplate, Template.clean_text, Template.clean_append,
    Template.clean_nil, marks_append, marks_lit, and_true, Nat.zero_add, Nat.add_zero]
  rw [marks_implode (by decide), List.map_map]
  exact ⟨hcols, hholes⟩

theorem holes_insertTemplate (s : Stmt V) :
    Template.holes s.insertTemplate = s.sets.map Prod.snd := by
  simp [insertTemplate, Template.holes_implode, List.flatMap_map, ← List.map_eq_flatMap]

/-- With plain names and a balanced where text, the template is clean. -/
theorem clean_template {s : Stmt V} (hn : s.nameMarks = 0) (hu : s.Balanced) :
    Template.Clean s.template := by
  cases hv : s.verb <;> simp only [nameMarks, hv, Nat.add_eq_zero_iff] at hn <;>
    simp (disch := decide) only [template, hv, Template.clean_text, Template.clean_append,
      Template.clean_nil, marks_append, marks_quoted, marks_fieldsText, marks_orderText,
      marks_limitText, marks_lit, hn, and_true, true_and, Nat.add_zero]
  case select => exact ⟨clean_whereTemplate hn.2.1.2 hu, hn.2.2⟩
  case update => exact ⟨clean_setTemplate hn.2.1, clean_whereTemplate hn.2.2 hu⟩
  case insert => exact clean_insertTemplate hn.2.2
  all_goals exact clean_whereTemplate (by simp [hn]) hu

/-- And it binds the statement's values. -/
theorem holes_template {s : Stmt V} (hu : s.Balanced) : Template.holes s.template = s.values := by
  cases hv : s.verb <;>
    simp [template, values, setValues, whereValues, hv, holes_whereTemplate hu, holes_setTemplate,
      holes_insertTemplate]

end Stmt
end

end RubbishStore.Pdo
