import Mathlib.Data.Option.Basic
import RubbishStore.Socket.HttpRequest

/- `struct http_request` as it lies in memory. `malloc` leaves a field without a
   value, and reading it before it is written is undefined, as is an access through
   NULL: `none`. Here the constructors write field by field, and the server reads
   after the parser has returned: three fields for its line on standard output, then
   what `delete_http_request` frees. `RawData` is this memory; the request of the
   callbacks, in which only `method` may be missing, is what it holds from
   `new_http_request` on (`execute_raw`). -/
namespace RubbishStore.Socket
open RubbishStore.Lib

structure RawHeader where
  name : Option (Option Bytes) := none
  value : Option (Option Bytes) := none
  next : Option (Option Addr) := none
  deriving DecidableEq, Repr

structure RawRequest where
  method : Option String := none
  url : Option (Option Bytes) := none
  body : Option (Option Bytes) := none
  flags : Option Nat := none
  httpMajor : Option Nat := none
  httpMinor : Option Nat := none
  headers : Option (Option Addr) := none
  deriving DecidableEq, Repr

structure RawData where
  heap : Heap RawHeader
  request : RawRequest
  deriving DecidableEq, Repr

/-- `new_http_header`, from what `malloc` gives. -/
def RawHeader.new : RawHeader :=
  let header : RawHeader := {}
  let header := { header with name := some none }
  let header := { header with value := some none }
  { header with next := some none }

/-- `new_http_request`. `method` is not written. -/
def RawRequest.new : RawRequest :=
  let request : RawRequest := {}
  let request := { request with headers := some none }
  let request := { request with url := some none }
  let request := { request with body := some none }
  let request := { request with flags := some 0 }
  let request := { request with httpMajor := some 0 }
  { request with httpMinor := some 0 }

/-- `header->next`, read. -/
def nextOf (h : Heap RawHeader) (header : Addr) : Option (Option Addr) := do
  (← h.load header).next

/-- `while (header->next != NULL) header = header->next;`, for at most `fuel` rounds. -/
def rawLastHeader (h : Heap RawHeader) : Nat → Addr → Option Addr
  | 0, _ => none
  | fuel + 1, header => do
    match ← nextOf h header with
    | none => return header
    | some next => rawLastHeader h fuel next

namespace RawData

def addHttpHeader (d : RawData) : Option (Addr × RawData) := do
  let new := d.heap.fresh
  let heap := d.heap.push .new
  match ← d.request.headers with
  | some header => do
    let last ← rawLastHeader d.heap d.heap.fresh header
    let heap ← heap.store last { ← heap.load last with next := some (some new) }
    return (new, { d with heap := heap })
  | none =>
    return (new, { heap := heap, request := { d.request with headers := some (some new) } })

def urlCb (parser : HttpParser) (d : RawData) (buf : Bytes) : Option RawData :=
  some { d with request :=
    { d.request with
      method := some parser.method
      httpMajor := some parser.httpMajor
      httpMinor := some parser.httpMinor
      url := some (some buf) } }

def headerFieldCb (d : RawData) (buf : Bytes) : Option RawData := do
  let (header, d) ← d.addHttpHeader
  let heap ← d.heap.store header { ← d.heap.load header with name := some (some buf) }
  return { d with heap := heap }

def headerValueCb (d : RawData) (buf : Bytes) : Option RawData := do
  let header ← rawLastHeader d.heap d.heap.fresh (← (← d.request.headers))
  let heap ← d.heap.store header { ← d.heap.load header with value := some (some buf) }
  return { d with heap := heap }

def bodyCb (d : RawData) (buf : Bytes) : Option RawData :=
  some { d with request := { d.request with body := some (some buf) } }

def call (parser : HttpParser) (d : RawData) : DataCb → Option RawData
  | .url buf => d.urlCb parser buf
  | .headerField buf => d.headerFieldCb buf
  | .headerValue buf => d.headerValueCb buf
  | .body buf => d.bodyCb buf

/-- `http_parser_execute`: the callbacks it makes before it stops. -/
def execute (parser : HttpParser) (cbs : List DataCb) : Option RawData :=
  cbs.foldlM (call parser) { heap := {}, request := .new }

/-- The line that is printed after it. -/
def printRequest (d : RawData) : Option String := do
  let method ← d.request.method
  let major ← d.request.httpMajor
  let minor ← d.request.httpMinor
  return "method: " ++ method ++ ", version: " ++ toString major ++ "." ++ toString minor ++ "\n"

/-- The loop over the headers: the headers it frees, for at most `fuel` of them. -/
def deleteHeaders (h : Heap RawHeader) : Nat → Option Addr → Option (List Addr)
  | _, none => some []
  | 0, some _ => none
  | fuel + 1, some toDelete => do
    let header ← nextOf h toDelete
    -- `delete_http_header`
    let node ← h.load toDelete
    let _name ← node.name
    let _value ← node.value
    return toDelete :: (← deleteHeaders h fuel header)

/-- The url, the body and the headers that are freed. -/
def deleteHttpRequest (d : RawData) : Option (Option Bytes × Option Bytes × List Addr) := do
  let url ← d.request.url
  let body ← d.request.body
  let headers ← deleteHeaders d.heap d.heap.fresh (← d.request.headers)
  return (url, body, headers)

/-- Everything the server reads of the request after the parser has returned. -/
def finish (d : RawData) : Option String := do
  let line ← d.printRequest
  let _ ← d.deleteHttpRequest
  return line

end RawData

/-! The request of the callbacks, in memory. -/

def HttpHeader.raw (header : HttpHeader) : RawHeader :=
  { name := some header.name, value := some header.value, next := some header.next }

def HttpRequest.raw (request : HttpRequest) : RawRequest :=
  { method := request.method
    url := some request.url
    body := some request.body
    flags := some request.flags
    httpMajor := some request.httpMajor
    httpMinor := some request.httpMinor
    headers := some request.headers }

def ParserData.raw (d : ParserData) : RawData :=
  { heap := d.heap.map HttpHeader.raw, request := d.request.raw }

section
variable (parser : HttpParser) (d : ParserData)

theorem nextOf_raw (h : Heap HttpHeader) (a : Addr) :
    nextOf (h.map HttpHeader.raw) a = h.field HttpHeader.next a := by
  rw [nextOf, Heap.load_map, Heap.field]
  cases h.load a with
  | none => rfl
  | some header => rfl

theorem rawLastHeader_raw (h : Heap HttpHeader) (fuel : Nat) (a : Addr) :
    rawLastHeader (h.map HttpHeader.raw) fuel a = lastHeader h fuel a := by
  induction fuel generalizing a with
  | zero => rfl
  | succ fuel ih =>
    rw [rawLastHeader, lastHeader, nextOf_raw]
    cases h.field HttpHeader.next a with
    | none => rfl
    | some p =>
      cases p with
      | none => rfl
      | some b => exact ih b

theorem push_raw (h : Heap HttpHeader) :
    (h.map HttpHeader.raw).push .new = (h.push newHttpHeader).map HttpHeader.raw :=
  (Heap.map_push HttpHeader.raw h newHttpHeader).symm

/-- A field of an allocated header is written, and what follows. -/
theorem store_raw {β γ : Type} {φ : β → γ} {f : HttpHeader → HttpHeader} {g : RawHeader → RawHeader}
    {k : Heap HttpHeader → Option β} {k' : Heap RawHeader → Option γ} (h : Heap HttpHeader) (a : Addr)
    (hfg : ∀ c, g c.raw = (f c).raw) (hk : ∀ h, k' (h.map HttpHeader.raw) = (k h).map φ) :
    (((h.map HttpHeader.raw).load a).bind fun c =>
        ((h.map HttpHeader.raw).store a (g c)).bind k') =
      ((h.load a).bind fun c => (h.store a (f c)).bind k).map φ := by
  rw [Heap.load_map]
  cases h.load a with
  | none => rfl
  | some c =>
    show ((h.map HttpHeader.raw).store a (g c.raw)).bind k' = ((h.store a (f c)).bind k).map φ
    rw [hfg, Heap.store_map]
    cases h.store a (f c) with
    | none => rfl
    | some h' => exact hk h'

theorem addHttpHeader_raw :
    d.raw.addHttpHeader = d.addHttpHeader.map fun r => (r.1, r.2.raw) := by
  have hheaders : d.raw.request.headers = some d.request.headers := rfl
  have hheap : d.raw.heap = d.heap.map HttpHeader.raw := rfl
  rw [RawData.addHttpHeader, ParserData.addHttpHeader, hheaders, hheap, push_raw, Heap.fresh_map]
  cases hd : d.request.headers with
  | none => simp [ParserData.raw, HttpRequest.raw]
  | some header =>
    simp only [Option.bind_eq_bind, Option.bind_some, rawLastHeader_raw]
    cases lastHeader d.heap d.heap.fresh header with
    | none => rfl
    | some last => exact store_raw (d.heap.push newHttpHeader) last (fun c => rfl) fun h => rfl

theorem headerFieldCb_raw (buf : Bytes) :
    d.raw.headerFieldCb buf = (d.headerFieldCb buf).map ParserData.raw := by
  rw [RawData.headerFieldCb, ParserData.headerFieldCb, addHttpHeader_raw]
  cases d.addHttpHeader with
  | none => rfl
  | some r => exact store_raw r.2.heap r.1 (fun c => rfl) fun h => rfl

theorem headerValueCb_raw (buf : Bytes) :
    d.raw.headerValueCb buf = (d.headerValueCb buf).map ParserData.raw := by
  have hheaders : d.raw.request.headers = some d.request.headers := rfl
  have hheap : d.raw.heap = d.heap.map HttpHeader.raw := rfl
  rw [RawData.headerValueCb, ParserData.headerValueCb, hheaders, hheap, Heap.fresh_map]
  cases d.request.headers with
  | none => rfl
  | some header =>
    simp only [Option.bind_eq_bind, Option.bind_some, rawLastHeader_raw]
    cases lastHeader d.heap d.heap.fresh header with
    | none => rfl
    | some last => exact store_raw d.heap last (fun c => rfl) fun h => rfl

theorem call_raw (cb : DataCb) : d.raw.call parser cb = (d.call parser cb).map ParserData.raw := by
  cases cb with
  | url buf => rfl
  | body buf => rfl
  | headerField buf => exact headerFieldCb_raw d buf
  | headerValue buf => exact headerValueCb_raw d buf

/-- The memory holds the request that the callbacks build. -/
theorem execute_raw (cbs : List DataCb) :
    RawData.execute parser cbs = (ParserData.build parser cbs).map ParserData.raw := by
  have hfold : ∀ d : ParserData, cbs.foldlM (RawData.call parser) d.raw =
      (cbs.foldlM (ParserData.call parser) d).map ParserData.raw := by
    induction cbs with
    | nil => exact fun d => rfl
    | cons cb cbs ih =>
      intro d
      rw [List.foldlM_cons, List.foldlM_cons, call_raw]
      cases d.call parser cb with
      | none => rfl
      | some d' => exact ih d'
  exact hfold { heap := {}, request := newHttpRequest }

end

/-! What is read afterwards. -/

/-- The loop over the headers reads and frees the nodes of the list. -/
theorem deleteHeaders_raw {h : Heap HttpHeader} {p : Option Addr} {nodes : List Addr} {fuel : Nat}
    (hs : Segment (h.field HttpHeader.next) p nodes none) (hfuel : nodes.length ≤ fuel) :
    RawData.deleteHeaders (h.map HttpHeader.raw) fuel p = some nodes := by
  induction nodes generalizing p fuel with
  | nil =>
    obtain rfl : p = none := hs
    rw [RawData.deleteHeaders]
  | cons a nodes ih =>
    obtain ⟨rfl, p', hnext, htail⟩ := hs
    obtain ⟨fuel, rfl⟩ := Nat.exists_eq_succ_of_ne_zero (Nat.ne_zero_of_lt hfuel)
    obtain ⟨header, hload, -⟩ := Heap.exists_load hnext
    have hrest := ih htail (Nat.le_of_succ_le_succ hfuel)
    have hload' : (h.map HttpHeader.raw).load a = some header.raw := by
      rw [Heap.load_map, hload, Option.map_some]
    rw [RawData.deleteHeaders, nextOf_raw, hnext]
    simp [hload', HttpHeader.raw, hrest]

/-- Everything that is freed has been written. -/
theorem deleteHttpRequest_raw {d : ParserData} {v : View} (hs : Shows d v) :
    ∃ nodes, d.raw.deleteHttpRequest = some (d.request.url, d.request.body, nodes) := by
  obtain ⟨nodes, hl⟩ := hs.headers
  have hfuel : nodes.length ≤ d.raw.heap.fresh := by
    rw [ParserData.raw, Heap.fresh_map]
    exact Heap.segment_length_le hl.path hl.distinct
  have hdelete : RawData.deleteHeaders d.raw.heap d.raw.heap.fresh d.request.headers = some nodes :=
    deleteHeaders_raw hl.path hfuel
  refine ⟨nodes, ?_⟩
  rw [RawData.deleteHttpRequest]
  show (RawData.deleteHeaders d.raw.heap d.raw.heap.fresh d.request.headers).bind _ = _
  rw [hdelete]
  rfl

/-- The line is printed exactly if `method` has been written. -/
theorem finish_raw {d : ParserData} {v : View} (hs : Shows d v) :
    d.raw.finish.isSome = d.request.method.isSome := by
  obtain ⟨nodes, hdelete⟩ := deleteHttpRequest_raw hs
  rw [RawData.finish, RawData.printRequest, hdelete]
  cases hmethod : d.request.method with
  | none => simp [ParserData.raw, HttpRequest.raw, hmethod]
  | some method => simp [ParserData.raw, HttpRequest.raw, hmethod]

/-- Only a url writes `method`. -/
theorem View.method_foldl (parser : HttpParser) (v : View) (cbs : List DataCb) :
    (cbs.foldl (View.call parser) v).method.isSome = true ↔
      v.method.isSome = true ∨ ∃ buf, .url buf ∈ cbs := by
  induction cbs generalizing v with
  | nil => simp
  | cons cb cbs ih =>
    rw [List.foldl_cons, ih]
    cases cb with
    | url buf =>
      refine ⟨fun _ => Or.inr ⟨buf, List.mem_cons_self⟩, fun _ => Or.inl rfl⟩
    | headerField buf => simp [View.call]
    | headerValue buf => simp [View.call]
    | body buf => simp [View.call]

/-- `http_parser` as the server uses it: the callbacks it makes on a text before it
    stops, and the method and version it holds when it hands out a url. -/
structure Parsing where
  parser : Bytes → HttpParser
  callbacks : Bytes → List DataCb
  /-- a request line has been recognised -/
  Recognised : Bytes → Prop
  url_recognised : ∀ text buf, .url buf ∈ callbacks text → Recognised text
  /-- a header's value follows its name -/
  value_after_name : ∀ text pre buf post, callbacks text = pre ++ .headerValue buf :: post →
    ∃ name, .headerField name ∈ pre

/-- On every text the parser returns; all that is read of the request afterwards has
    been written exactly if it has handed out a url. -/
theorem fields_written_iff (P : Parsing) (text : Bytes) :
    ∃ d, RawData.execute (P.parser text) (P.callbacks text) = some d ∧
      d.deleteHttpRequest.isSome ∧
      (d.finish.isSome ↔ ∃ buf, .url buf ∈ P.callbacks text) ∧
      (d.finish.isSome → P.Recognised text) := by
  obtain ⟨d, hbuild, hs⟩ := Shows.new.callOrdered (P.parser text)
    (Or.inr (P.value_after_name text))
  have hexecute : RawData.execute (P.parser text) (P.callbacks text) = some d.raw := by
    rw [execute_raw, ParserData.build, hbuild, Option.map_some]
  have hmethod : d.request.method =
      ((P.callbacks text).foldl (View.call (P.parser text)) View.new).method := by
    rw [hs.request]
  have hfinish : d.raw.finish.isSome ↔ ∃ buf, .url buf ∈ P.callbacks text := by
    rw [finish_raw hs, hmethod, View.method_foldl]
    simp [View.new]
  refine ⟨d.raw, hexecute, ?_, hfinish, fun hsome => ?_⟩
  · obtain ⟨nodes, hdelete⟩ := deleteHttpRequest_raw hs
    rw [hdelete]
    rfl
  · obtain ⟨buf, hbuf⟩ := hfinish.mp hsome
    exact P.url_recognised text buf hbuf

/-- A parser that knows one request, `GET / HTTP/1.1` and an empty line. -/
def oneRequest : Parsing where
  parser _ := { method := "GET", httpMajor := 1, httpMinor := 1 }
  callbacks text := if text = "GET / HTTP/1.1\r\n\r\n".toUTF8.toList then [.url [47]] else []
  Recognised text := text = "GET / HTTP/1.1\r\n\r\n".toUTF8.toList
  url_recognised text buf hurl := by
    split at hurl
    case isTrue h => exact h
    case isFalse => exact absurd hurl List.not_mem_nil
  value_after_name text pre buf post heq := by
    have hmem : DataCb.headerValue buf ∈ pre ++ .headerValue buf :: post :=
      List.mem_append_right pre List.mem_cons_self
    rw [← heq] at hmem
    split at hmem
    case isTrue => exact absurd hmem (by simp)
    case isFalse => exact absurd hmem List.not_mem_nil

/-- On `hello`, which begins no request, it hands out nothing, and `method` is read
    without having been written. -/
theorem method_unwritten :
    let hello := "hello\r\n".toUTF8.toList
    (RawData.execute (oneRequest.parser hello) (oneRequest.callbacks hello)).map
        (fun d => (d.request.method, d.finish)) = some (none, none) := by
  decide +kernel

end RubbishStore.Socket
