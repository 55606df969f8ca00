import RubbishStore.Lib.Assoc
import RubbishStore.Lib.Percent
import RubbishStore.Lib.Runs

/- `Util_Solr_Query`: the parameters of a query by name, each a string or an array
   of strings, with the typed accessors, and the text they are sent as. A call goes
   through (`Except.ok`), raises the exception for a format other than JSON, ends
   the process (`[]` on a string that is not empty), or never returns: `setField`
   calls itself, as deep as the stack goes. In a run without calls of the last two
   kinds every parameter is what was last set or all that was added
   (`get_run`), and the text of parameters with one value each parses to them
   (`parse_toString`). `buildQueryUri` is the older class's text, with a pair for
   each value. -/
namespace RubbishStore.Util.Solr
open RubbishStore.Lib RubbishStore.Lib.Percent

/-- A parameter's value: a string, or an array of strings. -/
inductive ParamValue where
  | one (value : Octets)
  | many (values : List Octets)
  deriving DecidableEq, Repr

def ParamValue.values : ParamValue → List Octets
  | .one value => [value]
  | .many values => values

/-- `Util_Solr_Exception` -/
structure SolrException where
  message : String
  deriving DecidableEq, Repr

/-- What `setResponseFormat` throws. -/
def unsupportedFormat : SolrException := ⟨"暂时只支持JSON格式"⟩

/-- How a call can fail. -/
inductive Failure where
  | fatal (message : String)
  | raised (e : SolrException)
  | endless
  deriving DecidableEq, Repr

/-- The letters, the digits, and `-`, `_`, `.`. -/
def isPlain (b : UInt8) : Bool :=
  (48 ≤ b && b ≤ 57) || (65 ≤ b && b ≤ 90) || (97 ≤ b && b ≤ 122) || b == 45 || b == 95 || b == 46

/-- PHP leaves `~` as well. -/
def rawurlencode (s : Octets) : Octets := encode (fun b => isPlain b || b == 126) s

/-- A space is written as `+`. -/
def urlencode (s : Octets) : Octets :=
  (encode (fun b => isPlain b || b == 32) s).map fun b => if b = 32 then 43 else b

structure Query where
  params : List (Octets × ParamValue)
  deriving DecidableEq, Repr

namespace Query

def construct : Query where
  params := [(octets "q", .one (octets "*:*")), (octets "wt", .one (octets "json"))]

/-- Null for a name that is not set. -/
def getParam (query : Query) (name : Octets) : Option ParamValue := query.params.lookup name

def setParam (query : Query) (name : Octets) (value : ParamValue) : Query :=
  ⟨assocSet query.params name value⟩

/-- `$this->params[$name][] = $value`: an empty string becomes an array, another
    string does not. -/
def addParam (query : Query) (name value : Octets) : Except Failure Query :=
  match query.getParam name with
  | none => .ok (query.setParam name (.many [value]))
  | some (.many values) => .ok (query.setParam name (.many (values ++ [value])))
  | some (.one []) => .ok (query.setParam name (.many [value]))
  | some (.one _) => .error (.fatal "[] operator not supported for strings")

def setQuery (query : Query) (value : Octets) : Query := query.setParam (octets "q") (.one value)
def getQuery (query : Query) : Option ParamValue := query.getParam (octets "query")

def addFilterQuery (query : Query) (value : Octets) : Except Failure Query :=
  query.addParam (octets "fq") value
def setFilterQuery (query : Query) (value : ParamValue) : Query :=
  query.setParam (octets "fq") value
def getFilterQuery (query : Query) : Option ParamValue := query.getParam (octets "fq")

def addSort (query : Query) (value : Octets) : Except Failure Query :=
  query.addParam (octets "sort") value
def setSort (query : Query) (value : ParamValue) : Query := query.setParam (octets "sort") value
def getSort (query : Query) : Option ParamValue := query.getParam (octets "sort")

def addField (query : Query) (value : Octets) : Except Failure Query :=
  query.addParam (octets "fl") value
/-- `return $this->setField($value)`, with room for `depth` calls. -/
def setField (query : Query) (value : ParamValue) : Nat → Except Failure Query
  | 0 => .error .endless
  | depth + 1 => setField query value depth
def getField (query : Query) : Option ParamValue := query.getParam (octets "fl")

def setTimeAllowed (query : Query) (value : Octets) : Query :=
  query.setParam (octets "timeAllowed") (.one value)
def getTimeAllowed (query : Query) : Option ParamValue := query.getParam (octets "timeAllowed")

def setResponseFormat (query : Query) (value : Octets) : Except Failure Query :=
  if value ∉ [octets "json"] then .error (.raised unsupportedFormat)
  else .ok (query.setParam (octets "wt") (.one value))
def getResponseFormat (query : Query) : Option ParamValue := query.getParam (octets "wt")

def getPreparedParams (query : Query) : List (Octets × ParamValue) :=
  query.params.map fun (name, param) =>
    match param with
    | .many param => (name, .many (param.map rawurlencode))
    | .one param => (name, .one (rawurlencode param))

def toString (query : Query) (urlEncode : Bool := false) : Octets :=
  let params := if urlEncode then query.getPreparedParams else query.params
  let pairs := params.map fun (name, value) =>
    match value with
    | .many value => name ++ octets "=" ++ (octets " ").intercalate value
    | .one value => name ++ octets "=" ++ value
  (octets "&").intercalate pairs

end Query

/-- The text of one pair in the older class. -/
def uriPair (key value : Octets) : Octets :=
  octets "&" ++ urlencode key ++ octets "=" ++ urlencode value

/-- `Util_Solr::build_query_uri` on the same parameters. -/
def buildQueryUri (queryParams : List (Octets × ParamValue)) (fl : Octets := []) : Octets :=
  queryParams.foldl
    (fun url (key, value) =>
      match value with
      | .many value => value.foldl (fun url val => url ++ uriPair key val) url
      | .one value => url ++ uriPair key value)
    (octets "fl=" ++ fl)

/-- A call that changes a query: `q`, `fq`, `sort`, `fl`, `timeAllowed` and `wt` with
    a value, the setters of arrays, or `set` and `add` themselves. -/
inductive Call where
  | set (name : Octets) (value : ParamValue)
  | add (name value : Octets)
  | q (value : Octets)
  | fq (value : Octets)
  | setFilterQuery (value : ParamValue)
  | sort (value : Octets)
  | setSort (value : ParamValue)
  | fl (value : Octets)
  | setField (value : ParamValue)
  | timeAllowed (value : Octets)
  | wt (value : Octets)
  deriving DecidableEq, Repr

namespace Query

/-- A call, where `depth` calls fit on the stack. -/
def call (depth : Nat) (query : Query) : Call → Except Failure Query
  | .set name value => .ok (query.setParam name value)
  | .add name value => query.addParam name value
  | .q value => .ok (query.setQuery value)
  | .fq value => query.addFilterQuery value
  | .setFilterQuery value => .ok (query.setFilterQuery value)
  | .sort value => query.addSort value
  | .setSort value => .ok (query.setSort value)
  | .fl value => query.addField value
  | .setField value => query.setField value depth
  | .timeAllowed value => .ok (query.setTimeAllowed value)
  | .wt value => query.setResponseFormat value

/-- The query after a call: one that fails has changed nothing. -/
def step (depth : Nat) (query : Query) (c : Call) : Query :=
  match query.call depth c with
  | .ok query => query
  | .error _ => query

end Query

/-! What the calls ask for. -/

/-- What a call does to one parameter. -/
inductive Change where
  | set (value : ParamValue)
  | add (value : Octets)
  deriving DecidableEq, Repr

/-- The parameter a call is about, and the change. -/
def Call.change : Call → Option (Octets × Change)
  | .set name value => some (name, .set value)
  | .add name value => some (name, .add value)
  | .q value => some (octets "q", .set (.one value))
  | .fq value => some (octets "fq", .add value)
  | .setFilterQuery value => some (octets "fq", .set value)
  | .sort value => some (octets "sort", .add value)
  | .setSort value => some (octets "sort", .set value)
  | .fl value => some (octets "fl", .add value)
  | .setField _ => none
  | .timeAllowed value => some (octets "timeAllowed", .set (.one value))
  | .wt value => if value = octets "json" then some (octets "wt", .set (.one value)) else none

/-- What is set replaces everything, what is added comes to what was added before. -/
def Change.after : Option ParamValue → Change → Option ParamValue
  | _, .set value => some value
  | some (.many values), .add value => some (.many (values ++ [value]))
  | _, .add value => some (.many [value])

/-- The value last set under a name, or all values added. -/
def asked (initial : Query) (name : Octets) (calls : List Call) : Option ParamValue :=
  (calls.filterMap fun c => c.change.bind fun (n, change) => if n = name then some change else none).foldl
    Change.after (initial.getParam name)

/-- The call is not one of those that end the process: no `setField`, and no
    addition to a string that is not empty. -/
def Permitted (query : Query) (c : Call) : Prop :=
  (∀ value, c ≠ .setField value) ∧
    ∀ name value, c.change = some (name, .add value) →
      ∀ s, query.getParam name = some (.one s) → s = []

/-- A call goes through, or it is `wt` with another format than JSON, raises the
    exception, and changes nothing. -/
def Returns (depth : Nat) (query : Query) (c : Call) : Prop :=
  (∃ query', query.call depth c = .ok query') ∨
    (∃ value, c = .wt value ∧ value ≠ octets "json") ∧
      query.call depth c = .error (.raised unsupportedFormat) ∧ query.step depth c = query

/-- The stored parameters, with a pair for each value. -/
def Query.pairs (query : Query) : List (Octets × Octets) :=
  query.params.flatMap fun (name, param) => param.values.map fun value => (name, value)

/-- Each parameter has one value and a name that stands for itself in a URL. -/
def Query.Spelled (query : Query) : Prop :=
  ∀ p ∈ query.params,
    p.2.values.length = 1 ∧ percent ∉ p.1 ∧ ampersand ∉ p.1 ∧ equals ∉ p.1

instance (query : Query) : Decidable query.Spelled :=
  inferInstanceAs (Decidable (∀ p ∈ query.params, _))

/-! Steps and runs. -/

section
variable {query : Query} {c : Call} {depth : Nat}

theorem getParam_setParam (query : Query) (name n : Octets) (value : ParamValue) :
    (query.setParam name value).getParam n =
      if name = n then some value else query.getParam n :=
  lookup_set query.params name n value

/-- An addition that is permitted. -/
theorem addParam_ok {name : Octets} (value : Octets)
    (h : ∀ s, query.getParam name = some (.one s) → s = []) :
    ∃ v, Change.after (query.getParam name) (.add value) = some v ∧
      query.addParam name value = .ok (query.setParam name v) := by
  rw [Query.addParam]
  cases hparam : query.getParam name with
  | none => exact ⟨.many [value], rfl, rfl⟩
  | some param =>
    cases param with
    | many values => exact ⟨.many (values ++ [value]), rfl, rfl⟩
    | one s =>
      obtain rfl := h s hparam
      exact ⟨.many [value], rfl, rfl⟩

/-- What a permitted call does: the change it asks for, or nothing. -/
theorem call_cases (depth : Nat) (h : Permitted query c) :
    (∃ name change v, c.change = some (name, change) ∧
      change.after (query.getParam name) = some v ∧
      query.call depth c = .ok (query.setParam name v)) ∨
    ∃ value, c = .wt value ∧ value ≠ octets "json" ∧ c.change = none ∧
      query.call depth c = .error (.raised unsupportedFormat) := by
  obtain ⟨hfield, hadd⟩ := h
  have adds : ∀ name value, c.change = some (name, .add value) →
      query.call depth c = query.addParam name value →
      ∃ name change v, c.change = some (name, change) ∧
        change.after (query.getParam name) = some v ∧
        query.call depth c = .ok (query.setParam name v) := by
    intro name value hchange hcall
    obtain ⟨v, hv, hok⟩ := addParam_ok value (hadd name value hchange)
    exact ⟨name, .add value, v, hchange, hv, hcall.trans hok⟩
  cases c with
  | set name value => exact .inl ⟨name, .set value, value, rfl, rfl, rfl⟩
  | add name value => exact .inl (adds name value rfl rfl)
  | q value => exact .inl ⟨_, .set (.one value), .one value, rfl, rfl, rfl⟩
  | fq value => exact .inl (adds _ value rfl rfl)
  | setFilterQuery value => exact .inl ⟨_, .set value, value, rfl, rfl, rfl⟩
  | sort value => exact .inl (adds _ value rfl rfl)
  | setSort value => exact .inl ⟨_, .set value, value, rfl, rfl, rfl⟩
  | fl value => exact .inl (adds _ value rfl rfl)
  | setField value => exact absurd rfl (hfield value)
  | timeAllowed value => exact .inl ⟨_, .set (.one value), .one value, rfl, rfl, rfl⟩
  | wt value =>
    by_cases hjson : value = octets "json"
    · refine .inl ⟨octets "wt", .set (.one value), .one value, if_pos hjson, rfl, ?_⟩
      simp [Query.call, Query.setResponseFormat, hjson]
    · refine .inr ⟨value, rfl, hjson, if_neg hjson, ?_⟩
      rw [Query.call, Query.setResponseFormat, if_pos (by simpa using hjson)]

theorem call_returns (h : Permitted query c) : Returns depth query c := by
  obtain ⟨name, change, v, -, -, hcall⟩ | ⟨value, hc, hjson, -, hcall⟩ := call_cases depth h
  · exact .inl ⟨_, hcall⟩
  · refine .inr ⟨⟨value, hc, hjson⟩, hcall, ?_⟩
    rw [Query.step, hcall]

theorem getParam_step (h : Permitted query c) (name : Octets) :
    (query.step depth c).getParam name = asked query name [c] := by
  rw [Query.step, asked]
  obtain ⟨n, change, v, hchange, hafter, hcall⟩ | ⟨value, -, -, hchange, hcall⟩ :=
    call_cases depth h
  · rw [hcall]
    show (query.setParam n v).getParam name = _
    rw [getParam_setParam]
    by_cases hn : n = name
    · subst hn
      simp [hchange, hafter]
    · simp [hchange, hn]
  · rw [hcall]
    simp [hchange]

theorem asked_cons (query : Query) (name : Octets) (c : Call) (calls : List Call) :
    asked query name (c :: calls) =
      (calls.filterMap fun c =>
        c.change.bind fun (n, change) => if n = name then some change else none).foldl
        Change.after (asked query name [c]) := by
  simp only [asked, ← List.foldl_append, ← List.filterMap_append, List.singleton_append]

/-- After a run of permitted calls a parameter is what was asked for. -/
theorem getParam_run {calls : List Call} (h : AtEach (Query.step depth) Permitted query calls)
    (name : Octets) :
    (run (Query.step depth) query calls).getParam name = asked query name calls := by
  induction calls generalizing query with
  | nil => rfl
  | cons c calls ih =>
    obtain ⟨hc, hrest⟩ := h
    rw [run_cons, ih hrest, asked_cons, ← getParam_step hc name]
    rfl

end

/-! The text of a query. -/

theorem octets_ampersand : octets "&" = [ampersand] := octets_eq _
theorem octets_equals : octets "=" = [equals] := octets_eq _

theorem decode_rawurlencode (s : Octets) : decode (rawurlencode s) = s := by
  apply decode_encode
  intro b hb hpercent
  subst hpercent
  exact absurd hb (by decide)

theorem ampersand_not_mem_rawurlencode (s : Octets) : ampersand ∉ rawurlencode s :=
  not_mem_encode (by decide) (by decide) (by decide) s

/-- A pair's text for each parameter of one value. -/
theorem toString_eq {query : Query} (h : query.Spelled) :
    query.toString true = joinQuery (query.pairs.map fun p => (p.1, rawurlencode p.2)) := by
  obtain ⟨params⟩ := query
  have hpairs : ∀ ps : List (Octets × ParamValue), (∀ p ∈ ps, p.2.values.length = 1) →
      (Query.getPreparedParams ⟨ps⟩).map (fun (name, value) =>
          match value with
          | .many value => name ++ octets "=" ++ (octets " ").intercalate value
          | .one value => name ++ octets "=" ++ value) =
        ((Query.pairs ⟨ps⟩).map fun p => (p.1, rawurlencode p.2)).map fun p =>
          p.1 ++ equals :: p.2 := by
    intro ps hps
    induction ps with
    | nil => rfl
    | cons p ps ih =>
      have htail := ih fun p' hp' => hps p' (List.mem_cons_of_mem p hp')
      have hone := hps p List.mem_cons_self
      obtain ⟨name, value⟩ := p
      simp only [Query.getPreparedParams, Query.pairs, List.map_cons, List.flatMap_cons,
        List.map_append, octets_equals] at htail ⊢
      rw [htail]
      match value, hone with
      | .one v, _ => simp [ParamValue.values]
      | .many [v], _ => simp [ParamValue.values]
  rw [Query.toString, if_pos rfl, joinQuery, octets_ampersand]
  exact congrArg _ (hpairs params fun p hp => (h p hp).1)

theorem parse_toString {query : Query} (h : query.Spelled) (hne : query.params ≠ []) :
    parseQuery (query.toString true) = query.pairs := by
  have hmem : ∀ p ∈ query.pairs, percent ∉ p.1 ∧ ampersand ∉ p.1 ∧ equals ∉ p.1 := by
    intro p hp
    obtain ⟨q, hq, hpair⟩ := List.mem_flatMap.mp hp
    obtain ⟨value, -, rfl⟩ := List.mem_map.mp hpair
    exact (h q hq).2
  rw [toString_eq h, parseQuery_join, List.map_map]
  · calc query.pairs.map _ = query.pairs.map id := by
          apply List.map_congr_left
          intro p hp
          simp [decode_plain (hmem p hp).1, decode_rawurlencode]
      _ = query.pairs := List.map_id _
  · cases hparams : query.params with
    | nil => exact absurd hparams hne
    | cons p params =>
      have hone := (h p (by simp [hparams])).1
      intro hnil
      have hlen := congrArg List.length hnil
      simp [Query.pairs, hparams, hone] at hlen
  · intro p hp
    obtain ⟨q, hq, rfl⟩ := List.mem_map.mp hp
    exact ⟨(hmem q hq).2.1, (hmem q hq).2.2, ampersand_not_mem_rawurlencode _⟩

/-! The text of the older class. -/

/-- A query string in which `+` is a space. -/
def parseForm (s : Octets) : List (Octets × Octets) :=
  parseQuery (s.map fun b => if b = 43 then 32 else b)

theorem unplus_urlencode (s : Octets) :
    (urlencode s).map (fun b => if b = 43 then 32 else b) =
      encode (fun b => isPlain b || b == 32) s := by
  rw [urlencode, List.map_map]
  calc List.map _ (encode (fun b => isPlain b || b == 32) s)
      = (encode (fun b => isPlain b || b == 32) s).map id := by
        apply List.map_congr_left
        intro b hb
        have hplus : b ≠ 43 := by
          rintro rfl
          exact not_mem_encode (by decide) (by decide) (by decide) s hb
        by_cases hspace : b = 32
        · simp [hspace]
        · simp [hspace, hplus]
    _ = encode (fun b => isPlain b || b == 32) s := List.map_id _

theorem foldl_append {A : Type} (f : A → Octets) (l : List A) (url : Octets) :
    l.foldl (fun url a => url ++ f a) url = url ++ l.flatMap f := by
  induction l generalizing url with
  | nil => simp
  | cons a l ih => rw [List.foldl_cons, ih, List.flatMap_cons, List.append_assoc]

theorem buildQueryUri_eq (params : List (Octets × ParamValue)) (fl : Octets) :
    buildQueryUri params fl =
      octets "fl=" ++ fl ++ (Query.pairs ⟨params⟩).flatMap fun p => uriPair p.1 p.2 := by
  rw [buildQueryUri]
  generalize octets "fl=" ++ fl = url
  induction params generalizing url with
  | nil => simp [Query.pairs]
  | cons p params ih =>
    obtain ⟨key, value⟩ := p
    have hrest : Query.pairs ⟨(key, value) :: params⟩ =
        value.values.map (fun v => (key, v)) ++ Query.pairs ⟨params⟩ := List.flatMap_cons
    rw [List.foldl_cons, ih, hrest, List.flatMap_append, ← List.append_assoc, List.flatMap_map]
    cases value with
    | one v => simp [ParamValue.values]
    | many vs => exact congrArg (· ++ _) (foldl_append (uriPair key) vs url)

/-- The older class's text is read, with a pair for each value. -/
theorem parse_buildQueryUri (query : Query) :
    parseForm (buildQueryUri query.params) = (octets "fl", []) :: query.pairs := by
  let enc : Octets → Octets := encode (fun b => isPlain b || b == 32)
  have hsafe : ∀ b, (isPlain b || b == 32) = true → b ≠ percent := by
    intro b hb hpercent
    subst hpercent
    exact absurd hb (by decide)
  have hpair : ∀ p : Octets × Octets,
      (uriPair p.1 p.2).map (fun b => if b = 43 then 32 else b) =
        ampersand :: (enc p.1 ++ equals :: enc p.2) := by
    intro p
    simp [uriPair, octets_ampersand, octets_equals, unplus_urlencode, enc]
    decide
  have htext : (buildQueryUri query.params).map (fun b => if b = 43 then 32 else b) =
      joinQuery ((octets "fl", []) :: query.pairs.map fun p => (enc p.1, enc p.2)) := by
    rw [buildQueryUri_eq, joinQuery_cons, List.map_append, List.map_flatMap, List.flatMap_map]
    simp only [hpair]
    simp [octets]
    decide
  rw [parseForm, htext, parseQuery_join (List.cons_ne_nil _ _)]
  · have hdecode : ∀ s, decode (enc s) = s := decode_encode hsafe
    have hfl : decode (octets "fl") = octets "fl" := decode_plain (by simp [octets]; decide)
    simp [List.map_map, Function.comp_def, hdecode, hfl]
    rfl
  · intro p hp
    rcases List.mem_cons.mp hp with rfl | hp
    · simp [octets]
      decide
    · obtain ⟨q, -, rfl⟩ := List.mem_map.mp hp
      exact ⟨not_mem_encode (by decide) (by decide) (by decide) _,
        not_mem_encode (by decide) (by decide) (by decide) _,
        not_mem_encode (by decide) (by decide) (by decide) _⟩

/-! The claim about a query object. -/

theorem params_ne_nil_step {query : Query} {c : Call} {depth : Nat} (h : Permitted query c)
    (hne : query.params ≠ []) : (query.step depth c).params ≠ [] := by
  rw [Query.step]
  obtain ⟨name, change, v, -, -, hcall⟩ | ⟨value, -, -, -, hcall⟩ := call_cases depth h
  · rw [hcall]
    show assocSet query.params name v ≠ []
    cases query.params with
    | nil => exact List.cons_ne_nil _ _
    | cons p params =>
      rw [assocSet]
      split <;> exact List.cons_ne_nil _ _
  · rw [hcall]
    exact hne

end RubbishStore.Util.Solr
