import RubbishStore.Lib.Runs
import RubbishStore.Util.SolrQuery
import Mathlib.Data.List.Induction

/- `Util_Solr_Response::setResponse`, call after call on one object. `numFound` and
   `start` are set before the documents, one of which may raise, and the documents are
   put behind those of the calls before. So the three come from one response exactly as
   long as every call with documents finds none there, and every call that raises does
   so at its first entry and with the numbers that are there already
   (`consistent_iff`). -/
namespace RubbishStore.Util.SolrResponse
open RubbishStore.Lib

/-- What `json_decode` gives with arrays for objects. A key is its text; a floating-point
    number is its bits. -/
inductive Json where
  | null
  | bool (b : Bool)
  | int (i : Int)
  | float (bits : UInt64)
  | string (s : Octets)
  | array (entries : List (Octets × Json))

/-- A condition. -/
def Json.truthy : Json → Bool
  | .null => false
  | .bool b => b
  | .int i => i ≠ 0
  | .float bits => bits ≠ 0 ∧ bits ≠ 0x8000000000000000
  | .string s => s ≠ [] ∧ s ≠ [48]
  | .array entries => !entries.isEmpty

/-- `$value[$key]`, for a key that is no number. Of a string it is the first byte, of
    anything else but an array `null`. -/
def Json.offset (key : Octets) : Json → Json
  | .array entries => (entries.lookup key).getD .null
  | .string s => .string (s.take 1)
  | _ => .null

/-- `isset($value[$key])`; a string has no such offset. -/
def Json.issetOffset (key : Octets) : Json → Bool
  | .array entries =>
    match entries.lookup key with
    | none => false
    | some .null => false
    | some _ => true
  | _ => false

/-- `Util_Solr_Document` -/
structure Document where
  fields : List (Octets × Json)

/-- What `addDocument` is called with. -/
inductive DocumentArg where
  | document (doc : Document)
  | value (v : Json)

/-- What `setResponse` is called with: a string, with what `json_decode` makes of it, or
    another value. -/
inductive Given where
  | string (s : Octets) (decoded : Json)
  | other (v : Json)

structure Response where
  response : Json := .null
  responseHeader : Json := .array []
  numFound : Json := .int 0
  start : Json := .int 0
  documents : List Document := []

/-- How a call ends; behind a fatal error nothing runs. -/
inductive Ending where
  | returned
  | raised (e : Solr.SolrException)
  | fatal

def invalidDocument : Solr.SolrException := ⟨"不合法的参数：支持数组和Util_Solr_Document对象"⟩

namespace Response

def addDocument (self : Response) : DocumentArg → Except Solr.SolrException Response
  | .value (.array fields) => .ok { self with documents := self.documents ++ [⟨fields⟩] }
  | .document doc => .ok { self with documents := self.documents ++ [doc] }
  | .value _ => .error invalidDocument

/-- The documents in front of one that raises stay. -/
def setDocuments (self : Response) : List Json → Ending × Response
  | [] => (.returned, self)
  | document :: documents =>
    match self.addDocument (.value document) with
    | .error e => (.raised e, self)
    | .ok self => setDocuments self documents

def setResponseHeader (self : Response) (responseHeader : Json) : Response :=
  { self with responseHeader := responseHeader }

def setNumFound (self : Response) (numFound : Json) : Response := { self with numFound := numFound }

def setStart (self : Response) (start : Json) : Response := { self with start := start }

/-- `setDocuments` takes nothing but an array. -/
def setResponse (self : Response) : Given → Ending × Response
  | .other v => (.returned, { self with response := v })
  | .string s decoded =>
    let self := { self with response := .string s }
    if decoded.truthy then
      let self := { self with response := decoded }
      let self :=
        if decoded.issetOffset (octets "responseHeader") then
          self.setResponseHeader (decoded.offset (octets "responseHeader"))
        else self
      if decoded.issetOffset (octets "response") then
        let response := decoded.offset (octets "response")
        let self := self.setNumFound (response.offset (octets "numFound"))
        let self := self.setStart (response.offset (octets "start"))
        match response.offset (octets "docs") with
        | .array docs => self.setDocuments (docs.map Prod.snd)
        | _ => (.fatal, self)
      else (.returned, self)
    else (.returned, self)

end Response

/-! Runs of calls. -/

structure Session where
  obj : Response := {}
  ended : Bool := false

def step (s : Session) (given : Given) : Session :=
  if s.ended then s
  else
    match s.obj.setResponse given with
    | (.fatal, obj) => ⟨obj, true⟩
    | (_, obj) => ⟨obj, false⟩

/-- The numbers and the documents. -/
structure Found where
  numFound : Json
  start : Json
  documents : List Document

def Response.found (self : Response) : Found := ⟨self.numFound, self.start, self.documents⟩

/-- The section `response` of a body. -/
def sectionOf : Given → Option Json
  | .other _ => none
  | .string _ decoded =>
    if decoded.truthy && decoded.issetOffset (octets "response") then some (decoded.offset (octets "response"))
    else none

def isArray : Json → Bool
  | .array _ => true
  | _ => false

/-- The entries of the documents of a section; `none` if they are not an array. -/
def entriesOf (response : Json) : Option (List Json) :=
  match response.offset (octets "docs") with
  | .array docs => some (docs.map Prod.snd)
  | _ => none

def documentOf : Json → Document
  | .array fields => ⟨fields⟩
  | _ => ⟨[]⟩

/-- What a body says, if it has a section with nothing but documents. -/
def said (given : Given) : Option Found :=
  match sectionOf given with
  | none => none
  | some response =>
    match entriesOf response with
    | none => none
    | some entries =>
      if entries.all isArray then
        some ⟨response.offset (octets "numFound"), response.offset (octets "start"), entries.map documentOf⟩
      else none

/-- What the last of some bodies says that says anything. -/
def lastSaid (calls : List Given) : Found :=
  calls.foldl (fun found given => (said given).getD found) ({} : Response).found

/-- Some entry of a body is not a document. -/
def Raises (given : Given) : Prop :=
  ∃ response entries, sectionOf given = some response ∧ entriesOf response = some entries ∧
    entries.all isArray = false

/-- After every call that comes back, the numbers and the documents are those of the last
    body that has them; and one with an entry that is not a document changes none. -/
structure Consistent (calls : List Given) : Prop where
  last : ∀ before, before <+: calls → (run step {} before).ended = false →
    (run step {} before).obj.found = lastSaid before
  raising : ∀ before given, before ++ [given] <+: calls → (run step {} before).ended = false → Raises given →
    (run step {} (before ++ [given])).obj.found = (run step {} before).obj.found

/-- A body that brings documents finds none, and one that raises does so at its first
    entry, with the numbers that are there. -/
def Permitted (s : Session) (given : Given) : Prop :=
  s.ended = true ∨ ∀ response entries, sectionOf given = some response → entriesOf response = some entries →
    (entries.all isArray = true → s.obj.documents = []) ∧
      (entries.all isArray = false →
        response.offset (octets "numFound") = s.obj.numFound ∧ response.offset (octets "start") = s.obj.start ∧
          entries.takeWhile isArray = [])

/-! One call. -/

theorem takeWhile_isArray {entries : List Json} (h : entries.all isArray = true) :
    entries.takeWhile isArray = entries := by
  rw [List.takeWhile_eq_self_iff]
  exact fun entry hentry => List.all_eq_true.mp h entry hentry

/-- The documents come up to the first entry that is none. -/
theorem setDocuments_eq (self : Response) (entries : List Json) :
    self.setDocuments entries =
      (if entries.all isArray then .returned else .raised invalidDocument,
        { self with documents := self.documents ++ (entries.takeWhile isArray).map documentOf }) := by
  induction entries generalizing self with
  | nil =>
    rw [List.takeWhile_nil, List.map_nil, List.append_nil]
    rfl
  | cons entry entries ih =>
    cases entry with
    | array fields =>
      have harray : isArray (.array fields) = true := rfl
      have hadd : self.addDocument (.value (.array fields)) =
          .ok { self with documents := self.documents ++ [⟨fields⟩] } := rfl
      rw [Response.setDocuments, hadd]
      dsimp only
      rw [ih, List.all_cons, harray, Bool.true_and, List.takeWhile_cons_of_pos harray, List.map_cons,
        List.append_assoc]
      rfl
    | null => simp [Response.setDocuments, Response.addDocument, isArray]
    | bool b => simp [Response.setDocuments, Response.addDocument, isArray]
    | int i => simp [Response.setDocuments, Response.addDocument, isArray]
    | float bits => simp [Response.setDocuments, Response.addDocument, isArray]
    | string s => simp [Response.setDocuments, Response.addDocument, isArray]

/-- Without a section the call comes back, and nothing is found. -/
theorem setResponse_none {given : Given} (self : Response) (h : sectionOf given = none) :
    (self.setResponse given).1 = .returned ∧ (self.setResponse given).2.found = self.found := by
  cases given with
  | other v => exact ⟨rfl, rfl⟩
  | string s decoded =>
    rw [sectionOf] at h
    split at h
    · cases h
    · next hsection =>
      rw [Response.setResponse]
      dsimp only
      split
      · next htruthy =>
        have hset : ¬decoded.issetOffset (octets "response") = true := by
          rwa [htruthy, Bool.true_and] at hsection
        rw [if_neg hset]
        split
        · exact ⟨rfl, rfl⟩
        · exact ⟨rfl, rfl⟩
      · exact ⟨rfl, rfl⟩

/-- With a section, its numbers are set first; then its documents are added, if they are
    an array. -/
theorem setResponse_some {given : Given} {response : Json} (self : Response) (h : sectionOf given = some response) :
    match entriesOf response with
    | none => (self.setResponse given).1 = .fatal
    | some entries =>
      (self.setResponse given).1 = (if entries.all isArray then .returned else .raised invalidDocument) ∧
      (self.setResponse given).2.found =
        ⟨response.offset (octets "numFound"), response.offset (octets "start"),
          self.documents ++ (entries.takeWhile isArray).map documentOf⟩ := by
  cases given with
  | other v => cases h
  | string s decoded =>
    rw [sectionOf] at h
    split at h
    · next hsection =>
      obtain ⟨htruthy, hset⟩ := Bool.and_eq_true_iff.mp hsection
      cases h
      rw [Response.setResponse, entriesOf]
      dsimp only
      rw [if_pos htruthy, if_pos hset]
      generalize Json.offset (octets "docs") (decoded.offset (octets "response")) = docs
      cases docs with
      | array docs =>
        dsimp only
        rw [setDocuments_eq]
        by_cases hheader : decoded.issetOffset (octets "responseHeader") = true
        · rw [if_pos hheader]
          exact ⟨rfl, rfl⟩
        · rw [if_neg hheader]
          exact ⟨rfl, rfl⟩
      | null => rfl
      | bool b => rfl
      | int i => rfl
      | float bits => rfl
      | string s => rfl
    · cases h

theorem step_ended {s : Session} (h : s.ended = true) (given : Given) : step s given = s := if_pos h

theorem step_running {s : Session} (h : s.ended = false) (given : Given) :
    (step s given).obj = (s.obj.setResponse given).2 ∧
      ((step s given).ended = true ↔ (s.obj.setResponse given).1 = .fatal) := by
  have hnot : ¬s.ended = true := by
    rw [h]
    exact Bool.false_ne_true
  rw [step, if_neg hnot]
  cases hresult : s.obj.setResponse given with
  | mk ending obj =>
    cases ending with
    | returned => exact ⟨rfl, iff_of_false Bool.false_ne_true Ending.noConfusion⟩
    | raised e => exact ⟨rfl, iff_of_false Bool.false_ne_true Ending.noConfusion⟩
    | fatal => exact ⟨rfl, iff_of_true rfl rfl⟩

theorem said_of_entries {given : Given} {response : Json} {entries : List Json}
    (hsection : sectionOf given = some response) (hentries : entriesOf response = some entries) :
    said given = if entries.all isArray then
      some ⟨response.offset (octets "numFound"), response.offset (octets "start"), entries.map documentOf⟩
    else none := by
  rw [said, hsection]
  dsimp only
  rw [hentries]

/-- The condition for one section and its entries. -/
theorem permitted_of_entries {s : Session} {given : Given} {response : Json} {entries : List Json}
    (hrunning : s.ended = false) (hsection : sectionOf given = some response)
    (hentries : entriesOf response = some entries) :
    Permitted s given ↔ (entries.all isArray = true → s.obj.documents = []) ∧
      (entries.all isArray = false →
        response.offset (octets "numFound") = s.obj.numFound ∧ response.offset (octets "start") = s.obj.start ∧
          entries.takeWhile isArray = []) := by
  rw [Permitted, hrunning, or_iff_right Bool.false_ne_true]
  refine ⟨fun h => h response entries hsection hentries, fun h response' entries' hsection' hentries' => ?_⟩
  rw [hsection] at hsection'
  cases hsection'
  rw [hentries] at hentries'
  cases hentries'
  exact h

/-- A call that comes back leaves what the bodies say exactly if it is permitted. -/
theorem step_found_iff {s : Session} {given : Given} (h : (step s given).ended = false) :
    (step s given).obj.found = (said given).getD s.obj.found ↔ Permitted s given := by
  have hrunning : s.ended = false := by
    by_contra hended
    rw [Bool.not_eq_false] at hended
    rw [step_ended hended, hended] at h
    cases h
  obtain ⟨hobj, hfatal⟩ := step_running hrunning given
  rw [hobj]
  cases hsection : sectionOf given with
  | none =>
    have hsaid : said given = none := by rw [said, hsection]
    rw [hsaid]
    refine iff_of_true (setResponse_none s.obj hsection).2 (.inr fun response entries hsome => ?_)
    rw [hsection] at hsome
    cases hsome
  | some response =>
    have hset := setResponse_some s.obj hsection
    cases hentries : entriesOf response with
    | none =>
      rw [hentries] at hset
      rw [hfatal.mpr hset] at h
      cases h
    | some entries =>
      rw [hentries] at hset
      dsimp only at hset
      rw [hset.2, said_of_entries hsection hentries]
      rw [permitted_of_entries hrunning hsection hentries]
      cases hall : entries.all isArray with
      | true =>
        rw [takeWhile_isArray hall, if_pos rfl, Option.getD_some, Found.mk.injEq, List.append_left_eq_self]
        exact ⟨fun h => ⟨fun _ => h.2.2, fun hfalse => absurd hfalse.symm Bool.false_ne_true⟩, fun h => ⟨rfl, rfl, h.1 rfl⟩⟩
      | false =>
        rw [if_neg Bool.false_ne_true, Option.getD_none, Response.found, Found.mk.injEq,
          List.append_right_eq_self, List.map_eq_nil_iff]
        exact ⟨fun h => ⟨fun htrue => absurd htrue Bool.false_ne_true, fun _ => h⟩, fun h => h.2 rfl⟩

/-! Runs. -/

theorem run_concat (calls : List Given) (given : Given) :
    run step {} (calls ++ [given]) = step (run step {} calls) given := run_append step {} calls [given]

theorem lastSaid_concat (calls : List Given) (given : Given) :
    lastSaid (calls ++ [given]) = (said given).getD (lastSaid calls) := List.foldl_concat ..

theorem said_of_raises {given : Given} (h : Raises given) : said given = none := by
  obtain ⟨response, entries, hsection, hentries, hall⟩ := h
  rw [said_of_entries hsection hentries, hall]
  rfl

theorem running_of_concat {calls : List Given} {given : Given}
    (h : (run step {} (calls ++ [given])).ended = false) : (run step {} calls).ended = false := by
  by_contra hended
  rw [Bool.not_eq_false] at hended
  rw [run_concat, step_ended hended, hended] at h
  cases h

/-- Where the last call ends the program, it brought no documents. -/
theorem permitted_of_ended {s : Session} {given : Given} (h : (step s given).ended = true) : Permitted s given := by
  by_cases hended : s.ended = true
  · exact .inl hended
  · refine .inr fun response entries hsection hentries => ?_
    have hfatal := (step_running (Bool.not_eq_true _ ▸ hended) given).2.mp h
    have hset := setResponse_some s.obj hsection
    rw [hentries] at hset
    rw [hset.1] at hfatal
    split at hfatal
    · cases hfatal
    · cases hfatal

/-- A raising call comes back. -/
theorem running_of_raises {s : Session} {given : Given} (h : s.ended = false) (hraises : Raises given) :
    (step s given).ended = false := by
  obtain ⟨response, entries, hsection, hentries, hall⟩ := hraises
  by_contra hended
  rw [Bool.not_eq_false] at hended
  have hfatal := (step_running h given).2.mp hended
  have hset := setResponse_some s.obj hsection
  rw [hentries] at hset
  rw [hset.1, hall] at hfatal
  cases hfatal

/-- One more call. -/
theorem consistent_concat_iff (calls : List Given) (given : Given) :
    Consistent (calls ++ [given]) ↔ Consistent calls ∧ Permitted (run step {} calls) given := by
  constructor
  · intro h
    have hcalls : Consistent calls :=
      ⟨fun before hbefore => h.last before (hbefore.trans (List.prefix_append calls _)),
        fun before g hbefore => h.raising before g (hbefore.trans (List.prefix_append calls _))⟩
    refine ⟨hcalls, ?_⟩
    cases hended : (step (run step {} calls) given).ended with
    | true => exact permitted_of_ended hended
    | false =>
      rw [← run_concat] at hended
      have hlast := h.last _ List.prefix_rfl hended
      have hbefore := hcalls.last calls List.prefix_rfl (running_of_concat hended)
      rw [lastSaid_concat, ← hbefore, run_concat] at hlast
      rw [run_concat] at hended
      exact (step_found_iff hended).mp hlast
  · intro h
    obtain ⟨hcalls, hpermitted⟩ := h
    have hfound : (run step {} (calls ++ [given])).ended = false →
        (run step {} (calls ++ [given])).obj.found = (said given).getD (run step {} calls).obj.found := by
      intro hended
      rw [run_concat] at hended ⊢
      exact (step_found_iff hended).mpr hpermitted
    refine ⟨fun before hbefore hended => ?_, fun before g hbefore hended hraises => ?_⟩
    · rcases List.prefix_concat_iff.mp hbefore with rfl | hbefore
      · rw [hfound hended, lastSaid_concat, hcalls.last calls List.prefix_rfl (running_of_concat hended)]
      · exact hcalls.last before hbefore hended
    · rcases List.prefix_concat_iff.mp hbefore with hsame | hbefore
      · obtain ⟨rfl, hg⟩ := List.append_inj' hsame rfl
        cases hg
        have hrunning := running_of_raises hended hraises
        rw [← run_concat] at hrunning
        rw [hfound hrunning, said_of_raises hraises, Option.getD_none]
      · exact hcalls.raising before g hbefore hended hraises

/-- **The numbers and the documents stay those of one response exactly while every call
    is permitted**, in every run. -/
theorem consistent_iff (calls : List Given) : Consistent calls ↔ AtEach step Permitted {} calls := by
  induction calls using List.reverseRecOn with
  | nil =>
    refine iff_of_true ⟨fun before hbefore _ => ?_, fun before given hbefore => ?_⟩ trivial
    · rw [List.prefix_nil.mp hbefore]
      rfl
    · exact absurd (List.prefix_nil.mp hbefore) (List.append_ne_nil_of_right_ne_nil before (List.cons_ne_nil _ _))
  | append_singleton calls given ih =>
    rw [consistent_concat_iff, ih, atEach_append]
    exact and_congr_right fun _ => (and_iff_left trivial).symm

/-- A body with one result, which brings these entries. -/
def oneFound (text : String) (docs : List (Octets × Json)) : Given :=
  .string (octets text) (.array [(octets "response",
    .array [(octets "numFound", .int 1), (octets "start", .int 0), (octets "docs", .array docs)])])

/-- Two pages, and a page with an entry that is not a document behind one that is. -/
theorem setResponse_appends :
    let page := oneFound "\x7b\"response\":\x7b\"numFound\":1,\"start\":0,\"docs\":[\x7b\x7d]\x7d\x7d"
      [(octets "0", .array [])]
    let broken := oneFound "\x7b\"response\":\x7b\"numFound\":1,\"start\":0,\"docs\":[\x7b\x7d,5]\x7d\x7d"
      [(octets "0", .array []), (octets "1", .int 5)]
    (run step {} [page, page]).obj.documents.length = 2 ∧ (lastSaid [page, page]).documents.length = 1 ∧
      (run step {} [broken]).obj.documents.length = 1 ∧ Raises broken ∧
      ¬∀ calls : List Given, Consistent calls := by
  intro page broken
  have hpages : (run step {} [page, page]).obj.documents.length = 2 := by decide +kernel
  have hlast : (lastSaid [page, page]).documents.length = 1 := by decide +kernel
  refine ⟨hpages, hlast, by decide +kernel, ?_, fun hall => ?_⟩
  · simp [Raises, broken, oneFound, sectionOf, entriesOf, Json.truthy, Json.issetOffset, Json.offset,
      List.lookup_cons, isArray, octets]
  · have hfound := (hall [page, page]).last _ List.prefix_rfl (by decide +kernel)
    have hlength : 2 = 1 := by
      calc 2 = (run step {} [page, page]).obj.documents.length := hpages.symm
        _ = (lastSaid [page, page]).documents.length := congrArg (fun found => found.documents.length) hfound
        _ = 1 := hlast
    cases hlength

end RubbishStore.Util.SolrResponse
