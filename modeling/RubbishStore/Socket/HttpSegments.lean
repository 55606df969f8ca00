import Mathlib.Data.Option.Basic
import RubbishStore.Socket.HttpRequest

/- The callbacks against the ways a message may be cut. `http_parser` may hand a
   url, a header name, a header value or a body out in several pieces; the
   request is to hold each as the concatenation of its pieces. Every callback
   keeps the last piece only, and a second piece of a name begins a new header:
   the request is the intended one exactly when no piece is lost that way
   (`builds_iff`). -/
namespace RubbishStore.Socket
open RubbishStore.Lib

/-- The pieces of a header. Each datum comes in one piece at least, which may be
    empty. -/
structure Field where
  name : List Bytes
  value : List Bytes
  name_ne : name ≠ []
  value_ne : value ≠ []

/-- A message, cut. The headers behind a chunked body are its trailers. -/
structure Message where
  url : List Bytes
  url_ne : url ≠ []
  headers : List Field
  body : List Bytes
  trailers : List Field

def Field.cbs (f : Field) : List DataCb := f.name.map .headerField ++ f.value.map .headerValue

/-- The callbacks of a message. -/
def Message.cbs (m : Message) : List DataCb :=
  m.url.map .url ++ m.headers.flatMap Field.cbs ++ m.body.map .body ++ m.trailers.flatMap Field.cbs

/-- The request that the message means. -/
def Message.whole (parser : HttpParser) (m : Message) : View where
  method := some parser.method
  url := some m.url.flatten
  body := if m.body = [] then none else some m.body.flatten
  flags := 0
  httpMajor := parser.httpMajor
  httpMinor := parser.httpMinor
  headers := (m.headers ++ m.trailers).map fun f => (some f.name.flatten, some f.value.flatten)

/-- The callbacks build the request the message means. -/
def Message.Builds (parser : HttpParser) (m : Message) : Prop :=
  ∃ d, ParserData.build parser m.cbs = some d ∧ Shows d (m.whole parser)

/-- All pieces but the last are empty. -/
def Trails (pieces : List Bytes) : Prop := ∀ p ∈ pieces.dropLast, p = []

/-- Names come in one piece, everything else in empty pieces and one more. -/
def Message.Uncut (m : Message) : Prop :=
  Trails m.url ∧ Trails m.body ∧
    ∀ f ∈ m.headers ++ m.trailers, f.name.length = 1 ∧ Trails f.value

/-- The entries that the callbacks of a header add. -/
def Field.entries (f : Field) : List (Option Bytes × Option Bytes) :=
  f.name.dropLast.map (fun p => (some p, none)) ++
    [(some (f.name.getLast f.name_ne), some (f.value.getLast f.value_ne))]

/-- The request that the callbacks build. -/
def Message.built (parser : HttpParser) (m : Message) : View where
  method := some parser.method
  url := some (m.url.getLast m.url_ne)
  body := m.body.getLast?
  flags := 0
  httpMajor := parser.httpMajor
  httpMinor := parser.httpMinor
  headers := (m.headers ++ m.trailers).flatMap Field.entries

/-! What the callbacks of one datum do to a view. -/

section
variable (parser : HttpParser) (v : View)

theorem View.foldl_url {pieces : List Bytes} (hne : pieces ≠ []) :
    (pieces.map DataCb.url).foldl (View.call parser) v =
      { v with
        method := some parser.method
        httpMajor := parser.httpMajor
        httpMinor := parser.httpMinor
        url := some (pieces.getLast hne) } := by
  induction pieces generalizing v with
  | nil => exact absurd rfl hne
  | cons p pieces ih =>
    cases pieces with
    | nil => rfl
    | cons p' pieces => exact ih (v.call parser (.url p)) (List.cons_ne_nil p' pieces)

theorem View.foldl_body {pieces : List Bytes} (hbody : v.body = none) :
    (pieces.map DataCb.body).foldl (View.call parser) v = { v with body := pieces.getLast? } := by
  induction pieces using List.reverseRecOn with
  | nil => rw [List.getLast?_nil, ← hbody]; rfl
  | append_singleton pieces p ih =>
    rw [List.map_append, List.foldl_append, ih, List.getLast?_concat]
    rfl

theorem View.foldl_name (pieces : List Bytes) :
    (pieces.map DataCb.headerField).foldl (View.call parser) v =
      { v with headers := v.headers ++ pieces.map fun p => (some p, none) } := by
  induction pieces generalizing v with
  | nil => simp
  | cons p pieces ih =>
    rw [List.map_cons, List.foldl_cons, ih]
    simp [View.call]

theorem View.foldl_value {entries : List (Option Bytes × Option Bytes)} {name : Option Bytes}
    {pieces : List Bytes} (hne : pieces ≠ []) (value : Option Bytes) :
    (pieces.map DataCb.headerValue).foldl (View.call parser)
        { v with headers := entries ++ [(name, value)] } =
      { v with headers := entries ++ [(name, some (pieces.getLast hne))] } := by
  induction pieces generalizing value with
  | nil => exact absurd rfl hne
  | cons p pieces ih =>
    have hstep : View.call parser { v with headers := entries ++ [(name, value)] } (.headerValue p) =
        { v with headers := entries ++ [(name, some p)] } := by
      simp [View.call]
    rw [List.map_cons, List.foldl_cons, hstep]
    cases pieces with
    | nil => rfl
    | cons p' pieces => exact ih (List.cons_ne_nil p' pieces) (some p)

theorem View.foldl_field (f : Field) :
    f.cbs.foldl (View.call parser) v = { v with headers := v.headers ++ f.entries } := by
  have hname : f.name.map (fun p => ((some p, none) : Option Bytes × Option Bytes)) =
      f.name.dropLast.map (fun p => (some p, none)) ++ [(some (f.name.getLast f.name_ne), none)] := by
    conv => lhs; rw [← List.dropLast_append_getLast f.name_ne]
    rw [List.map_append]
    rfl
  rw [Field.cbs, List.foldl_append, View.foldl_name, hname, ← List.append_assoc,
    View.foldl_value parser v f.value_ne, List.append_assoc]
  rfl

theorem View.foldl_fields (fs : List Field) :
    (fs.flatMap Field.cbs).foldl (View.call parser) v =
      { v with headers := v.headers ++ fs.flatMap Field.entries } := by
  induction fs generalizing v with
  | nil => simp
  | cons f fs ih =>
    rw [List.flatMap_cons, List.foldl_append, View.foldl_field, ih]
    simp

end

/-- The callbacks of a message, on views. -/
theorem View.foldl_message (parser : HttpParser) (m : Message) :
    m.cbs.foldl (View.call parser) View.new = m.built parser := by
  rw [Message.cbs, List.foldl_append, List.foldl_append, List.foldl_append,
    View.foldl_url parser _ m.url_ne, View.foldl_fields, View.foldl_fields,
    View.foldl_body _ _ rfl]
  simp [View.new, Message.built]

/-! What the callbacks of a message do to the request. -/

namespace Shows
variable {parser : HttpParser} {d : ParserData} {v : View}

/-- Callbacks in turn; a value needs a header before it. -/
theorem callAll (hs : Shows d v) {cbs : List DataCb}
    (hvalue : v.headers ≠ [] ∨ ∀ buf, .headerValue buf ∉ cbs) :
    ∃ d', cbs.foldlM (ParserData.call parser) d = some d' ∧
      Shows d' (cbs.foldl (View.call parser) v) := by
  refine hs.callOrdered parser (hvalue.imp_right fun hnone pre buf post heq => ?_)
  exact absurd (heq ▸ List.mem_append_right pre List.mem_cons_self) (hnone buf)

theorem append {as bs : List DataCb}
    (ha : ∃ d', as.foldlM (ParserData.call parser) d = some d' ∧
      Shows d' (as.foldl (View.call parser) v))
    (hb : ∀ d', Shows d' (as.foldl (View.call parser) v) →
      ∃ d'', bs.foldlM (ParserData.call parser) d' = some d'' ∧
        Shows d'' (bs.foldl (View.call parser) (as.foldl (View.call parser) v))) :
    ∃ d'', (as ++ bs).foldlM (ParserData.call parser) d = some d'' ∧
      Shows d'' ((as ++ bs).foldl (View.call parser) v) := by
  obtain ⟨d', hrun, hs'⟩ := ha
  obtain ⟨d'', hrun', hs''⟩ := hb d' hs'
  refine ⟨d'', ?_, ?_⟩
  · rw [List.foldlM_append, hrun]
    exact hrun'
  · rw [List.foldl_append]
    exact hs''

theorem fields (hs : Shows d v) (fs : List Field) :
    ∃ d', (fs.flatMap Field.cbs).foldlM (ParserData.call parser) d = some d' ∧
      Shows d' ((fs.flatMap Field.cbs).foldl (View.call parser) v) := by
  induction fs generalizing d v with
  | nil => exact ⟨d, rfl, hs⟩
  | cons f fs ih =>
    rw [List.flatMap_cons]
    apply append
    · -- the names make a header for the values
      apply append
      · exact hs.callAll (.inr (by simp))
      · intro d' hs'
        apply hs'.callAll
        left
        rw [View.foldl_name]
        exact List.append_ne_nil_of_right_ne_nil _ (mt List.map_eq_nil_iff.mp f.name_ne)
    · intro d' hs'
      exact ih hs'

end Shows

/-- However a message is cut, its callbacks meet no NULL and build what they
    build on views. -/
theorem build_message (parser : HttpParser) (m : Message) :
    ∃ d, ParserData.build parser m.cbs = some d ∧ Shows d (m.built parser) := by
  rw [← View.foldl_message]
  apply Shows.append
  · apply Shows.append
    · apply Shows.append
      · exact Shows.new.callAll (.inr (by simp))
      · intro d hs
        exact hs.fields m.headers
    · intro d hs
      exact hs.callAll (.inr (by simp))
  · intro d hs
    exact hs.fields m.trailers

/-- What a request reads as is determined. -/
theorem Shows.unique {d : ParserData} {v v' : View} (hs : Shows d v) (hs' : Shows d v') :
    v = v' := by
  obtain ⟨nodes, hl⟩ := hs.headers
  obtain ⟨nodes', hl'⟩ := hs'.headers
  obtain rfl := hl.path.unique hl'.path
  have hheaders : v.headers = v'.headers :=
    List.map_injective_iff.mpr (Option.some_injective _) (hl.holds.symm.trans hl'.holds)
  have hrequest := hs.request.symm.trans hs'.request
  simp only [HttpRequest.mk.injEq] at hrequest
  obtain ⟨hmethod, hurl, hbody, hflags, hmajor, hminor, -⟩ := hrequest
  cases v
  cases v'
  simp_all

theorem builds_iff_built {parser : HttpParser} {m : Message} :
    m.Builds parser ↔ m.built parser = m.whole parser := by
  obtain ⟨d, hrun, hs⟩ := build_message parser m
  refine ⟨fun h => ?_, fun heq => ?_⟩
  · obtain ⟨d', hrun', hs'⟩ := h
    obtain rfl := Option.some.inj (hrun.symm.trans hrun')
    exact hs.unique hs'
  · exact ⟨d, hrun, heq ▸ hs⟩

/-! When nothing is lost. -/

theorem getLast_eq_flatten_iff {pieces : List Bytes} (hne : pieces ≠ []) :
    pieces.getLast hne = pieces.flatten ↔ Trails pieces := by
  have hflat : pieces.flatten = pieces.dropLast.flatten ++ pieces.getLast hne := by
    conv => lhs; rw [← List.dropLast_append_getLast hne]
    rw [List.flatten_append, List.flatten_singleton]
  rw [hflat, Trails, List.self_eq_append_left, List.flatten_eq_nil_iff]

theorem getLast?_eq_flatten_iff {pieces : List Bytes} :
    pieces.getLast? = (if pieces = [] then none else some pieces.flatten) ↔ Trails pieces := by
  by_cases hnil : pieces = []
  · subst hnil
    simp [Trails]
  · rw [if_neg hnil, List.getLast?_eq_some_getLast hnil, Option.some_inj,
      getLast_eq_flatten_iff hnil]

theorem entries_eq_iff (fs : List Field) :
    fs.flatMap Field.entries = fs.map (fun f => (some f.name.flatten, some f.value.flatten)) ↔
      ∀ f ∈ fs, f.name.length = 1 ∧ Trails f.value := by
  induction fs with
  | nil => simp
  | cons f fs ih =>
    rw [List.flatMap_cons, List.map_cons, List.forall_mem_cons, Field.entries]
    cases hpre : f.name.dropLast with
    | nil =>
      -- one piece, one entry: what is left to ask is its value
      have hone : f.name = [f.name.getLast f.name_ne] := by
        conv => lhs; rw [← List.dropLast_append_getLast f.name_ne, hpre]
        rfl
      have hlen : f.name.length = 1 := by
        rw [hone]
        rfl
      have hname : f.name.getLast f.name_ne = f.name.flatten := by
        conv => rhs; rw [hone]
        rw [List.flatten_singleton]
      rw [List.map_nil, List.nil_append, List.singleton_append, List.cons_eq_cons, Prod.mk.injEq,
        hname, Option.some_inj, Option.some_inj, getLast_eq_flatten_iff, ih]
      simp [hlen]
    | cons p pre =>
      -- the first of several pieces has an entry without a value
      have hlen : f.name.length ≠ 1 := by
        have hpos := congrArg List.length hpre
        rw [List.length_dropLast, List.length_cons] at hpos
        omega
      simp [hlen]

theorem built_eq_whole_iff {parser : HttpParser} {m : Message} :
    m.built parser = m.whole parser ↔ m.Uncut := by
  rw [Message.built, Message.whole, View.mk.injEq, Option.some_inj, Option.some_inj,
    getLast_eq_flatten_iff, getLast?_eq_flatten_iff, entries_eq_iff, Message.Uncut]
  simp

/-- The message in as few pieces as it can come in. -/
def Field.joined (f : Field) : Field where
  name := [f.name.flatten]
  value := [f.value.flatten]
  name_ne := List.cons_ne_nil _ _
  value_ne := List.cons_ne_nil _ _

def Message.joined (m : Message) : Message where
  url := [m.url.flatten]
  url_ne := List.cons_ne_nil _ _
  headers := m.headers.map Field.joined
  body := if m.body = [] then [] else [m.body.flatten]
  trailers := m.trailers.map Field.joined

/-- The request a message means is the one its callbacks build when it is not cut. -/
theorem joined_builds (parser : HttpParser) (m : Message) :
    m.joined.Builds parser ∧ m.joined.whole parser = m.whole parser := by
  constructor
  · rw [builds_iff_built, built_eq_whole_iff]
    refine ⟨by simp [Message.joined, Trails], ?_, ?_⟩
    · by_cases hnil : m.body = [] <;> simp [Message.joined, Trails, hnil]
    · simp only [Message.joined, ← List.map_append, List.forall_mem_map]
      intro f _
      exact ⟨rfl, by simp [Field.joined, Trails]⟩
  · by_cases hnil : m.body = [] <;>
      simp [Message.whole, Message.joined, hnil, ← List.map_append, Function.comp_def, Field.joined]

/-- The callbacks build the intended request exactly from a message whose names
    come in one piece and whose other data come in one piece that is not empty
    at most. -/
theorem builds_iff (parser : HttpParser) (m : Message) : m.Builds parser ↔ m.Uncut := by
  rw [builds_iff_built, built_eq_whole_iff]

/-- `POST /c` with a body in the chunks `hello` and ` world`, as `httptest.c` sends
    them: the body of the request is ` world`. -/
def twoChunks : Message where
  url := [[47, 99]]
  url_ne := List.cons_ne_nil _ _
  headers := []
  body := [[104, 101, 108, 108, 111], [32, 119, 111, 114, 108, 100]]
  trailers := []

theorem twoChunks_lost :
    ¬ twoChunks.Builds { method := "POST", httpMajor := 1, httpMinor := 1 } ∧
      (ParserData.build { method := "POST", httpMajor := 1, httpMinor := 1 } twoChunks.cbs).map
        (·.request.body) = some (some [32, 119, 111, 114, 108, 100]) := by
  refine ⟨?_, by decide⟩
  rw [builds_iff_built]
  decide

end RubbishStore.Socket
