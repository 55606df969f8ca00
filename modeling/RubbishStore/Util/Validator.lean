import RubbishStore.Lib.Recording
import RubbishStore.Lib.Runs
import RubbishStore.Util.ValidatorRules

/- The object `Util_Validator`. An evaluation tries every condition of every
   attribute and adds what fails to the messages, which decide the verdict; nothing
   takes a message away again, so that the answers depend on the evaluations before.
   What an evaluation adds, and whether it raises, depends on the data and the rules
   alone (`passes_records`); with that a validator in use is compared with a new one
   that has the same data and rules. -/
namespace RubbishStore.Util
namespace Validator
open RubbishStore.Lib

/-! Arrays of PHP. -/

/-- The next free number behind this key and those before it. -/
def Key.next (n : Int) : Key → Int
  | .int i => max n (i + 1)
  | .str _ => n

def Key.isInt : Key → Bool
  | .int _ => true
  | .str _ => false

section
variable {β : Type}

/-- `$entry[] = $b` -/
def push (entry : List (Key × β)) (b : β) : List (Key × β) :=
  entry ++ [(.int (entry.foldl (fun n p => p.1.next n) 0), b)]

/-- An element goes to its key, or to the next number where its key is a number. -/
def mergeElement (m : List (Key × β)) (p : Key × β) : List (Key × β) :=
  if p.1.isInt then m ++ [(.int (m.countP fun q => q.1.isInt), p.2)] else assocSet m p.1 p.2

def arrayMerge (m m' : List (Key × β)) : List (Key × β) :=
  m'.foldl mergeElement (m.foldl mergeElement [])

end

/-! The rules as they are given. -/

/-- The rule of an attribute: one text, or its conditions one by one. -/
inductive Given where
  | text (s : Text)
  | array (conditions : List Text)
  deriving DecidableEq, Repr

abbrev PersonMessage : Type := List (Key × Message)

/-- `strstr($condition, 'message')` -/
def hasMessage (condition : Text) : Bool :=
  condition.tails.any fun rest => Replace.startsWith id (chars "message") rest

/-- The text behind the first colon. -/
def personText (condition : Text) : Text :=
  trimText (condition.dropWhile fun c => c ≠ ':').tail

/-- The conditions that are kept, and the personal messages with those of the others. -/
def explodeConditions (attr : Key) : List Text → PersonMessage → List Text × PersonMessage
  | [], person => ([], person)
  | condition :: conditions, person =>
    if hasMessage condition then
      explodeConditions attr conditions (assocSet person attr (.text (personText condition)))
    else
      let rest := explodeConditions attr conditions person
      (condition :: rest.1, rest.2)

def explodeRules : List (Key × Given) → PersonMessage → RuleSet × PersonMessage
  | [], person => ([], person)
  | (attr, .text s) :: rules, person =>
    let conditions := explodeConditions attr (s.splitOn '|') person
    let rest := explodeRules rules conditions.2
    ((attr, conditions.1) :: rest.1, rest.2)
  | (attr, .array conditions) :: rules, person =>
    let rest := explodeRules rules person
    ((attr, conditions) :: rest.1, rest.2)

end Validator
open RubbishStore.Lib Validator

/-! The object. -/

abbrev Messages : Type := List (Key × List (Key × Message))

set_option synthInstance.maxSize 512 in
structure Validator (O : Type) where
  data : Data O
  rules : RuleSet := []
  failedRules : List (Key × List (Key × List Param)) := []
  messages : Messages := []
  personMessage : PersonMessage := []
  deriving DecidableEq, Repr

namespace Validator
variable {X O : Type} (php : Php X O)

def construct (data : Data O) (rules : List (Key × Given)) : Validator O :=
  let exploded := explodeRules rules []
  { data := data, rules := exploded.1, personMessage := exploded.2 }

def setData (v : Validator O) (data : Data O) : Validator O := { v with data := data }

def setRules (v : Validator O) (rules : List (Key × Given)) : Validator O :=
  let exploded := explodeRules rules v.personMessage
  { v with rules := exploded.1, personMessage := exploded.2 }

/-- What `addFailure` is given. -/
structure Failure where
  attr : Key
  rule : Text
  parameters : List Param
  deriving DecidableEq, Repr

/-- The messages with that of a failure, and with the personal ones. -/
def addMessage (person : PersonMessage) (messages : Messages) (f : Failure) : Messages :=
  let message := doReplacements (getMessage f.rule) f.attr f.rule f.parameters
  let messages := assocSet messages f.attr (push ((messages.lookup f.attr).getD []) message)
  arrayMerge messages [(.str (chars "personMessage"), person)]

def addError (v : Validator O) (f : Failure) : Validator O :=
  { v with messages := addMessage v.personMessage v.messages f }

def addFailure (v : Validator O) (f : Failure) : Validator O :=
  let v := v.addError f
  let failed := (v.failedRules.lookup f.attr).getD []
  { v with
    failedRules := assocSet v.failedRules f.attr (assocSet failed (Key.ofText f.rule) f.parameters) }

/-- `validate`, where `self` is what it does as the method of the rule without a name. -/
def validateWith (self : Value O → Action (Validator O) (Fault X) Unit) (attr : Key) (rule : Text) :
    Action (Validator O) (Fault X) Unit :=
  if trimText rule = [] then pure ()
  else do
    let parsed := parseRule php rule
    let v ← Action.get
    let value := getValue v.data attr
    let validatable ← Action.lift (isValidatable php v.data v.rules parsed.1 attr value)
    if !validatable then pure ()
    else if parsed.1 = [] then do
      -- `validate` returns nothing, which counts as a failure
      self value
      Action.modify fun v => v.addFailure ⟨attr, parsed.1, parsed.2⟩
    else do
      let passed ← Action.lift (callMethod php parsed.1 ⟨v.data, v.rules, attr, value, parsed.2⟩)
      if passed then pure () else Action.modify fun v => v.addFailure ⟨attr, parsed.1, parsed.2⟩

/-- The rule without a name calls `validate` with the value as the rule; if that has no
    name either, it goes on so without an end. -/
def validate (attr : Key) : Text → Action (Validator O) (Fault X) Unit :=
  validateWith php (fun value => do
    let rule ← Action.lift (textOf php value)
    validateWith php (fun _ => Action.lift (.error .endless)) attr rule) attr

namespace Public

def passes : Action (Validator O) (Fault X) Bool := do
  let v ← Action.get
  v.rules.forM fun entry => entry.2.forM (validate php entry.1)
  let v ← Action.get
  return v.messages.isEmpty

def fails : Action (Validator O) (Fault X) Bool := do
  return !(← passes php)

def messages : Action (Validator O) (Fault X) Messages := do
  let v ← Action.get
  if v.messages.isEmpty then do
    let _ ← passes php
    let v ← Action.get
    return v.messages
  else return v.messages

def errors : Action (Validator O) (Fault X) Messages := messages php

end Public

/-! What an evaluation adds. -/

section
variable (data : Data O) (rules : RuleSet)

/-- The failures of one condition; `self` is the same of the value as a condition. -/
def judgeWith (self : Value O → Outcome Failure (Fault X)) (attr : Key) (rule : Text) :
    Outcome Failure (Fault X) :=
  if trimText rule = [] then {}
  else
    let parsed := parseRule php rule
    let value := getValue data attr
    .ofExcept (isValidatable php data rules parsed.1 attr value) fun validatable =>
      if !validatable then {}
      else if parsed.1 = [] then (self value).andThen (.item ⟨attr, parsed.1, parsed.2⟩)
      else .ofExcept (callMethod php parsed.1 ⟨data, rules, attr, value, parsed.2⟩) fun passed =>
        if passed then {} else .item ⟨attr, parsed.1, parsed.2⟩

def judge (attr : Key) : Text → Outcome Failure (Fault X) :=
  judgeWith php data rules (fun value => .ofExcept (textOf php value) fun rule =>
    judgeWith php data rules (fun _ => .raise .endless) attr rule) attr

/-- All failures of the data against the rules, or those before what is raised. -/
def evaluation : Outcome Failure (Fault X) :=
  .all (fun entry : Key × List Text => .all (judge php data rules entry.1) entry.2) rules

def Configured (v : Validator O) : Prop := v.data = data ∧ v.rules = rules

theorem configured_addFailure (v : Validator O) (f : Failure) (h : Configured data rules v) :
    Configured data rules (v.addFailure f) := h

theorem validateWith_records {self : Value O → Action (Validator O) (Fault X) Unit}
    {selfOutcome : Value O → Outcome Failure (Fault X)} (attr : Key) (rule : Text)
    (hself : ∀ value, Records addFailure (Configured data rules) (self value) (selfOutcome value)) :
    Records addFailure (Configured data rules) (validateWith php self attr rule)
      (judgeWith php data rules selfOutcome attr rule) := by
  rw [validateWith, judgeWith]
  refine .ite .pure ?_
  refine .get (fun v hv => by rw [hv.1, hv.2]) ?_
  refine .lift fun validatable => ?_
  refine .ite .pure ?_
  refine .ite ?_ ?_
  · exact .seq (configured_addFailure data rules) (hself _) (.item _)
  · refine .lift fun passed => ?_
    exact .ite .pure (.item _)

theorem validate_records (attr : Key) (rule : Text) :
    Records addFailure (Configured data rules) (validate php attr rule)
      (judge php data rules attr rule) := by
  refine validateWith_records php data rules attr rule fun value => ?_
  refine .lift fun rule => ?_
  exact validateWith_records php data rules attr rule fun _ => .raise _

end

/-- The object after an evaluation. -/
def evaluated (v : Validator O) : Validator O :=
  (evaluation php v.data v.rules).items.foldl addFailure v

/-- An evaluation adds its failures in order, and gives a verdict or raises. -/
theorem passes_exec (v : Validator O) :
    (Public.passes php).exec v =
      ((evaluation php v.data v.rules).returned.map fun _ => (v.evaluated php).messages.isEmpty,
        v.evaluated php) := by
  have hall : Records addFailure (Configured v.data v.rules)
      (v.rules.forM fun entry => entry.2.forM (validate php entry.1)) (evaluation php v.data v.rules) :=
    .forM (configured_addFailure _ _) _ fun entry _ =>
      .forM (configured_addFailure _ _) _ fun rule _ =>
        validate_records php v.data v.rules entry.1 rule
  rw [Public.passes, Action.exec_get_bind, Action.exec_bind_read, hall v ⟨rfl, rfl⟩]
  rfl

theorem fails_exec (v : Validator O) :
    (Public.fails php).exec v =
      ((evaluation php v.data v.rules).returned.map fun _ => !(v.evaluated php).messages.isEmpty,
        v.evaluated php) := by
  rw [Public.fails, Action.exec_bind_pure, passes_exec, Outcome.returned_map_map]

/-- Without a message there is an evaluation first. -/
theorem messages_exec_nil {v : Validator O} (h : v.messages = []) :
    (Public.messages php).exec v =
      ((evaluation php v.data v.rules).returned.map fun _ => (v.evaluated php).messages,
        v.evaluated php) := by
  rw [Public.messages, Action.exec_get_bind, h, List.isEmpty_nil, if_pos rfl, Action.exec_bind_read,
    passes_exec, Outcome.returned_map_map]

theorem messages_exec_cons {v : Validator O} (h : v.messages ≠ []) :
    (Public.messages php).exec v = (.ok v.messages, v) := by
  rw [Public.messages, Action.exec_get_bind, if_neg (by rwa [List.isEmpty_iff])]
  rfl

/-! What is added to the messages. -/

theorem foldl_addFailure (v : Validator O) (items : List Failure) :
    (items.foldl addFailure v).data = v.data ∧ (items.foldl addFailure v).rules = v.rules ∧
      (items.foldl addFailure v).personMessage = v.personMessage ∧
      (items.foldl addFailure v).messages = items.foldl (addMessage v.personMessage) v.messages := by
  induction items generalizing v with
  | nil => exact ⟨rfl, rfl, rfl, rfl⟩
  | cons f items ih => exact ih (v.addFailure f)

theorem evaluated_messages (v : Validator O) :
    (v.evaluated php).messages =
      (evaluation php v.data v.rules).items.foldl (addMessage v.personMessage) v.messages :=
  (foldl_addFailure v _).2.2.2

theorem lookup_addMessage (person : PersonMessage) (messages : Messages) (f : Failure) :
    (addMessage person messages f).lookup (.str (chars "personMessage")) = some person :=
  lookup_set_self _ _ person

/-- Failures leave the personal messages behind. -/
theorem lookup_foldl_addMessage (person : PersonMessage) (messages : Messages) {items : List Failure}
    (hne : items ≠ []) :
    (items.foldl (addMessage person) messages).lookup (.str (chars "personMessage")) = some person := by
  rw [← List.dropLast_append_getLast hne, List.foldl_concat]
  exact lookup_addMessage person _ _

theorem isEmpty_foldl_addMessage (person : PersonMessage) (messages : Messages) (items : List Failure) :
    (items.foldl (addMessage person) messages).isEmpty = (messages.isEmpty && items.isEmpty) := by
  by_cases hne : items = []
  · rw [hne, List.foldl_nil, List.isEmpty_nil, Bool.and_true]
  · have hlookup := lookup_foldl_addMessage person messages hne
    have hresult : items.foldl (addMessage person) messages ≠ [] := by
      intro hnil
      rw [hnil] at hlookup
      cases hlookup
    rw [List.isEmpty_eq_false_iff.mpr hresult, List.isEmpty_eq_false_iff.mpr hne, Bool.and_false]

theorem foldl_addMessage_eq_iff (person person' : PersonMessage) (messages : Messages)
    (items : List Failure) :
    items.foldl (addMessage person) messages = items.foldl (addMessage person') messages ↔
      items = [] ∨ person = person' := by
  refine ⟨fun h => ?_, fun h => ?_⟩
  · by_cases hne : items = []
    · exact .inl hne
    · have hlookup := lookup_foldl_addMessage person messages hne
      rw [h, lookup_foldl_addMessage person' messages hne] at hlookup
      exact .inr (Option.some.inj hlookup).symm
  · obtain rfl | rfl := h
    · rfl
    · rfl

/-- What is kept of the rules does not depend on earlier personal messages. -/
theorem explodeConditions_fst (attr : Key) (conditions : List Text) (person person' : PersonMessage) :
    (explodeConditions attr conditions person).1 = (explodeConditions attr conditions person').1 := by
  induction conditions generalizing person person' with
  | nil => rfl
  | cons condition conditions ih =>
    rw [explodeConditions, explodeConditions]
    split
    · exact ih _ _
    · exact congrArg (condition :: ·) (ih person person')

theorem explodeRules_fst (rules : List (Key × Given)) (person person' : PersonMessage) :
    (explodeRules rules person).1 = (explodeRules rules person').1 := by
  induction rules generalizing person person' with
  | nil => rfl
  | cons entry rules ih =>
    obtain ⟨attr, s | conditions⟩ := entry
    · simp only [explodeRules]
      rw [explodeConditions_fst attr _ person person', ih _ _]
    · simp only [explodeRules]
      rw [ih person person']

/-! A validator in use. -/

/-- The rules given last stand beside the object, with what has happened since the
    last change of data or rules: how many evaluations there were, whether `passes`
    or `fails` was called, and whether there were messages before. -/
structure Session (O : Type) where
  obj : Validator O
  given : List (Key × Given)
  evaluations : Nat := 0
  asked : Bool := false
  stale : Bool := false

inductive Call (O : Type) where
  | setData (data : Data O)
  | setRules (rules : List (Key × Given))
  | passes
  | fails
  | messages
  | errors

namespace Session

def start (data : Data O) (rules : List (Key × Given)) : Session O :=
  { obj := construct data rules, given := rules }

def step (s : Session O) : Call O → Session O
  | .setData data =>
    { obj := s.obj.setData data, given := s.given, stale := !s.obj.messages.isEmpty }
  | .setRules rules =>
    { obj := s.obj.setRules rules, given := rules, stale := !s.obj.messages.isEmpty }
  | .passes =>
    { s with obj := ((Public.passes php).exec s.obj).2, evaluations := s.evaluations + 1, asked := true }
  | .fails =>
    { s with obj := ((Public.fails php).exec s.obj).2, evaluations := s.evaluations + 1, asked := true }
  | .messages =>
    { s with
      obj := ((Public.messages php).exec s.obj).2
      evaluations := if s.obj.messages.isEmpty then s.evaluations + 1 else s.evaluations }
  | .errors =>
    { s with
      obj := ((Public.errors php).exec s.obj).2
      evaluations := if s.obj.messages.isEmpty then s.evaluations + 1 else s.evaluations }

/-- A new validator with the current data and rules. -/
def fresh (s : Session O) : Validator O := construct s.obj.data s.given

/-- The failures of the current data against the current rules. -/
def current (s : Session O) : Outcome Failure (Fault X) := evaluation php s.obj.data s.obj.rules

/-- A call answers as it does on a new validator. -/
def Answers (s : Session O) : Call O → Prop
  | .setData _ | .setRules _ => True
  | .passes => ((Public.passes php).exec s.obj).1 = ((Public.passes php).exec s.fresh).1
  | .fails => ((Public.fails php).exec s.obj).1 = ((Public.fails php).exec s.fresh).1
  | .messages => ((Public.messages php).exec s.obj).1 = ((Public.messages php).exec s.fresh).1
  | .errors => ((Public.errors php).exec s.obj).1 = ((Public.errors php).exec s.fresh).1

/-- A repeated call, without a change in between, leaves the object as it is. -/
def Idempotent (s : Session O) : Call O → Prop
  | .passes => s.asked = true → ((Public.passes php).exec s.obj).2 = s.obj
  | .fails => s.asked = true → ((Public.fails php).exec s.obj).2 = s.obj
  | _ => True

def Agrees (s : Session O) (c : Call O) : Prop := s.Answers php c ∧ s.Idempotent php c

/-- For a verdict: there are no messages yet, or the data fail now as well. -/
def VerdictClean (s : Session O) : Prop :=
  s.obj.messages = [] ∨ (s.current php).items ≠ [] ∨ (s.current php).raised ≠ none

/-- For a report: without messages, that the data do not fail or no personal message is
    left of earlier rules; with messages, that all are of the one evaluation since the
    last change, and no personal message is left of earlier rules. -/
def ReportClean (s : Session O) : Prop :=
  if s.obj.messages = [] then
    (s.current php).items = [] ∨ (s.current php).raised ≠ none ∨
      s.obj.personMessage = s.fresh.personMessage
  else
    s.stale = false ∧ s.evaluations = 1 ∧ (s.current php).raised = none ∧
      s.obj.personMessage = s.fresh.personMessage

def Permitted (s : Session O) : Call O → Prop
  | .setData _ | .setRules _ => True
  | .passes | .fails => s.VerdictClean php ∧ (s.asked = true → (s.current php).items = [])
  | .messages | .errors => s.ReportClean php

/-- What holds of a validator in use. -/
structure Consistent (s : Session O) : Prop where
  rules_eq : s.obj.rules = s.fresh.rules
  untouched : s.evaluations = 0 → s.stale = false → s.obj.messages = []
  once : s.evaluations = 1 → s.stale = false →
    s.obj.messages = (s.current php).items.foldl (addMessage s.obj.personMessage) []

variable {php} {s : Session O}

theorem Consistent.start (data : Data O) (rules : List (Key × Given)) :
    Consistent php (start data rules) :=
  ⟨rfl, fun _ _ => rfl, fun h => by cases h⟩

theorem Consistent.evaluate (h : Consistent php s) (asked : Bool) :
    Consistent php { s with
      obj := s.obj.evaluated php, evaluations := s.evaluations + 1, asked := asked } := by
  obtain ⟨hdata, hrules, hperson, hmessages⟩ :=
    foldl_addFailure s.obj (evaluation php s.obj.data s.obj.rules).items
  refine ⟨hrules.trans h.rules_eq, fun hzero => absurd hzero (Nat.succ_ne_zero _), fun hone hstale => ?_⟩
  have huntouched := h.untouched (Nat.succ.inj hone) hstale
  simp only [current, evaluated, hdata, hrules, hperson, hmessages, huntouched]

/-- A report evaluates first where there are no messages. -/
theorem Consistent.report (h : Consistent php s) :
    Consistent php { s with
      obj := ((Public.messages php).exec s.obj).2
      evaluations := if s.obj.messages.isEmpty then s.evaluations + 1 else s.evaluations } := by
  by_cases hempty : s.obj.messages = []
  · rw [messages_exec_nil php hempty, hempty, List.isEmpty_nil, if_pos rfl]
    exact h.evaluate s.asked
  · rw [messages_exec_cons php hempty, if_neg (by rwa [List.isEmpty_iff])]
    exact h

theorem messages_eq_nil {messages : Messages} (h : (!messages.isEmpty) = false) : messages = [] := by
  rwa [Bool.not_eq_false', List.isEmpty_iff] at h

theorem Consistent.step (h : Consistent php s) (c : Call O) : Consistent php (s.step php c) := by
  cases c with
  | setData data =>
    exact ⟨h.rules_eq, fun _ hstale => messages_eq_nil hstale, fun hone _ => by cases hone⟩
  | setRules rules =>
    exact ⟨explodeRules_fst rules _ _, fun _ hstale => messages_eq_nil hstale,
      fun hone _ => by cases hone⟩
  | passes =>
    rw [Session.step, passes_exec]
    exact h.evaluate true
  | fails =>
    rw [Session.step, fails_exec]
    exact h.evaluate true
  | messages => exact h.report
  | errors => exact h.report

/-- A new validator comes to the same failures. -/
theorem Consistent.current_fresh (h : Consistent php s) :
    evaluation php s.fresh.data s.fresh.rules = s.current php := by
  rw [current, h.rules_eq]
  rfl

theorem evaluation_obj : evaluation php s.obj.data s.obj.rules = s.current php := rfl

theorem Consistent.verdict_iff (h : Consistent php s) :
    ((s.current php).raised ≠ none ∨
        (s.obj.evaluated php).messages.isEmpty = (s.fresh.evaluated php).messages.isEmpty) ↔
      s.VerdictClean php := by
  have hobj : (s.obj.evaluated php).messages.isEmpty =
      (s.obj.messages.isEmpty && (s.current php).items.isEmpty) := by
    rw [evaluated_messages, isEmpty_foldl_addMessage, evaluation_obj]
  have hfresh : (s.fresh.evaluated php).messages.isEmpty = (s.current php).items.isEmpty := by
    rw [evaluated_messages, h.current_fresh, isEmpty_foldl_addMessage]
    rfl
  have hverdict : (s.obj.evaluated php).messages.isEmpty = (s.fresh.evaluated php).messages.isEmpty ↔
      s.obj.messages = [] ∨ (s.current php).items ≠ [] := by
    rw [hobj, hfresh, Bool.and_eq_right_iff_imp, List.isEmpty_iff, List.isEmpty_iff, imp_iff_or_not]
  rw [hverdict, VerdictClean, or_comm, or_assoc]

theorem Consistent.answers_passes_iff (h : Consistent php s) :
    s.Answers php .passes ↔ s.VerdictClean php := by
  rw [Answers, passes_exec, passes_exec, h.current_fresh, ← h.verdict_iff]
  exact Outcome.returned_map_eq_iff _ _ _

theorem Consistent.answers_fails_iff (h : Consistent php s) :
    s.Answers php .fails ↔ s.VerdictClean php := by
  rw [Answers, fails_exec, fails_exec, h.current_fresh, ← h.verdict_iff]
  refine (Outcome.returned_map_eq_iff _ _ _).trans ?_
  rw [Bool.not_inj_iff]
  exact Iff.rfl

/-- A report of a validator without messages. -/
theorem Consistent.answers_messages_iff (h : Consistent php s) (hnil : s.obj.messages = []) :
    s.Answers php .messages ↔ s.ReportClean php := by
  have hfresh : s.fresh.messages = [] := rfl
  rw [Answers, messages_exec_nil php hnil, messages_exec_nil php hfresh, h.current_fresh, ReportClean,
    if_pos hnil, evaluated_messages, evaluated_messages, h.current_fresh, hnil, hfresh, evaluation_obj]
  refine (Outcome.returned_map_eq_iff _ _ _).trans ?_
  rw [foldl_addMessage_eq_iff, or_left_comm]

/-- A report of the messages that are there. -/
theorem Consistent.answers_messages (h : Consistent php s) (hclean : s.ReportClean php) :
    s.Answers php .messages := by
  by_cases hnil : s.obj.messages = []
  · exact (h.answers_messages_iff hnil).mpr hclean
  · -- nothing is evaluated; the messages are those of the one evaluation before
    have hfresh : s.fresh.messages = [] := rfl
    rw [ReportClean, if_neg hnil] at hclean
    obtain ⟨hstale, hone, hraised, hperson⟩ := hclean
    rw [Answers, messages_exec_cons php hnil, messages_exec_nil php hfresh, h.current_fresh,
      evaluated_messages, h.current_fresh, hfresh, ← hperson, ← h.once hone hstale, Outcome.returned, hraised]
    rfl

theorem Consistent.answers (h : Consistent php s) {c : Call O} (hc : s.Permitted php c) :
    s.Answers php c := by
  cases c with
  | setData data => trivial
  | setRules rules => trivial
  | passes => exact h.answers_passes_iff.mpr hc.1
  | fails => exact h.answers_fails_iff.mpr hc.1
  | messages => exact h.answers_messages hc
  | errors => exact h.answers_messages hc

/-- An evaluation without a failure changes nothing. -/
theorem evaluated_eq_self (h : (s.current php).items = []) : s.obj.evaluated php = s.obj := by
  rw [evaluated]
  exact congrArg (List.foldl addFailure s.obj) h

theorem idempotent_of_permitted {c : Call O} (hc : s.Permitted php c) : s.Idempotent php c := by
  cases c with
  | setData data => trivial
  | setRules rules => trivial
  | passes =>
    intro hasked
    rw [passes_exec]
    exact evaluated_eq_self (hc.2 hasked)
  | fails =>
    intro hasked
    rw [fails_exec]
    exact evaluated_eq_self (hc.2 hasked)
  | messages => trivial
  | errors => trivial

variable (php)

/-- In a run whose calls are all permitted, each answers as it does on a new validator,
    and a repeated one changes nothing. In any run, a verdict is that of a new validator
    if and only if it is clean, and so is a report that has to evaluate first. -/
theorem calls_agree (data : Data O) (rules : List (Key × Given)) (calls : List (Call O)) :
    (AtEach (step php) (fun s c => s.Permitted php c) (start data rules) calls →
      AtEach (step php) (fun s c => s.Agrees php c) (start data rules) calls) ∧
    AtEach (step php) (fun s _ =>
      (s.Answers php .passes ↔ s.VerdictClean php) ∧ (s.Answers php .fails ↔ s.VerdictClean php) ∧
      (s.obj.messages = [] → (s.Answers php .messages ↔ s.ReportClean php)))
      (start data rules) calls := by
  have hstart : Consistent php (start data rules) := Consistent.start data rules
  refine ⟨fun hpermitted => ?_, ?_⟩
  · exact atEach_of_inv hstart hpermitted (fun s c hs _ => hs.step c)
      fun s c hs hc => ⟨hs.answers hc, idempotent_of_permitted hc⟩
  · exact atEach_of_inv hstart atEach_true (fun s c hs _ => hs.step c)
      fun s _ hs _ => ⟨hs.answers_passes_iff, hs.answers_fails_iff, hs.answers_messages_iff⟩

def isNumericOrInt : Value Int → Bool
  | .null => false
  | .str s => PhpText.isNumeric (s.map Char.toNat)
  | .other _ => true

/-- A PHP whose values are texts and integers, as far as rules without parameters ask. -/
def textsAndInts : Php Empty Int where
  strGetcsv s := (s.splitOn ',').map some
  keyOfFiles _ := .ok false
  text i := .ok (PhpNumber.text i)
  ofInt i := i
  isOne i := i = 1
  isArray _ := false
  count _ := 1
  isDateTime _ := false
  isNumeric := isNumericOrInt
  looseEq value value' := value = value'
  looseLe _ _ := false
  mbString := true
  filterVar _ _ := false
  pregMatch _ _ := false
  checkdnsrr _ := .ok false
  strtotime _ := none
  checkdate _ := .ok false
  dateParseFromFormat _ _ := (1, 0)

/-- Once a required name was missing, the verdict stays false when it is there, and with
    it missing a second call lists it twice; a personal message outlives its rules. -/
theorem verdict_stays_false :
    let name : Key := .str (chars "name")
    let rules : List (Key × Given) := [(name, .text (chars "required|message: who?"))]
    let failed : Session Int := run (step textsAndInts) (start [] rules) [.passes]
    let filled : Session Int := run (step textsAndInts) failed [.setData [(name, .str (chars "bob"))]]
    let plain : Session Int :=
      run (step textsAndInts) (start [] rules) [.setRules [(name, .text (chars "required"))]]
    (((Public.passes textsAndInts).exec filled.obj).1 = .ok false ∧
      ((Public.passes textsAndInts).exec filled.fresh).1 = .ok true) ∧
    ((Public.passes textsAndInts).exec failed.obj).2.messages ≠ failed.obj.messages ∧
    ((Public.messages textsAndInts).exec plain.obj).1 ≠
      ((Public.messages textsAndInts).exec plain.fresh).1 := by
  decide +kernel

end Session

end Validator

end RubbishStore.Util
