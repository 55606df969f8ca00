import RubbishStore.Lib.Heap
import RubbishStore.Socket.Unp

/- `struct http_request` of `httpserver.c` and the four data callbacks that build
   it from what `http_parser` hands them. The headers are a linked list in the
   heap; a callback's bytes are copied (`alloc_cpy`), a former copy is dropped.
   What the callbacks print is left out, and with it the byte `print_range`
   writes behind its block. An access through NULL is undefined: `none`.
   `View` is the request with its list of headers read off, and the callbacks on
   views say what they mean (`Shows.call`). -/
namespace RubbishStore.Socket
open RubbishStore.Lib

structure HttpHeader where
  name : Option Bytes
  value : Option Bytes
  next : Option Addr
  deriving DecidableEq, Repr

/-- `method` is not set by `new_http_request`. -/
structure HttpRequest where
  method : Option String
  url : Option Bytes
  body : Option Bytes
  flags : Nat
  httpMajor : Nat
  httpMinor : Nat
  headers : Option Addr
  deriving DecidableEq, Repr

/-- What `url_cb` reads of the parser. -/
structure HttpParser where
  method : String
  httpMajor : Nat
  httpMinor : Nat

/-- `parser->data`: the request, and the heap its headers are in. -/
structure ParserData where
  heap : Heap HttpHeader
  request : HttpRequest
  deriving DecidableEq, Repr

/-- A data callback, by name and bytes. -/
inductive DataCb where
  | url (buf : Bytes)
  | headerField (buf : Bytes)
  | headerValue (buf : Bytes)
  | body (buf : Bytes)
  deriving DecidableEq, Repr

def newHttpHeader : HttpHeader := { name := none, value := none, next := none }

def newHttpRequest : HttpRequest :=
  { method := none, url := none, body := none, flags := 0, httpMajor := 0, httpMinor := 0,
    headers := none }

/-- `while (header->next != NULL) header = header->next;`, for at most `fuel` rounds. -/
def lastHeader (h : Heap HttpHeader) : Nat → Addr → Option Addr
  | 0, _ => none
  | fuel + 1, header => do
    match ← h.field HttpHeader.next header with
    | none => return header
    | some next => lastHeader h fuel next

namespace ParserData

/-- The new header and where it is: behind the last one, or the first. -/
def addHttpHeader (d : ParserData) : Option (Addr × ParserData) :=
  let new := d.heap.fresh
  let heap := d.heap.push newHttpHeader
  match d.request.headers with
  | some header => do
    let last ← lastHeader d.heap d.heap.fresh header
    let heap ← heap.store last { ← heap.load last with next := some new }
    return (new, { d with heap := heap })
  | none =>
    return (new, { heap := heap, request := { d.request with headers := some new } })

def urlCb (parser : HttpParser) (d : ParserData) (buf : Bytes) : Option ParserData :=
  some { d with request :=
    { d.request with
      method := some parser.method
      httpMajor := parser.httpMajor
      httpMinor := parser.httpMinor
      url := some buf } }

def headerFieldCb (d : ParserData) (buf : Bytes) : Option ParserData := do
  let (header, d) ← d.addHttpHeader
  let heap ← d.heap.store header { ← d.heap.load header with name := some buf }
  return { d with heap := heap }

def headerValueCb (d : ParserData) (buf : Bytes) : Option ParserData := do
  let header ← lastHeader d.heap d.heap.fresh (← d.request.headers)
  let heap ← d.heap.store header { ← d.heap.load header with value := some buf }
  return { d with heap := heap }

def bodyCb (d : ParserData) (buf : Bytes) : Option ParserData :=
  some { d with request := { d.request with body := some buf } }

def call (parser : HttpParser) (d : ParserData) : DataCb → Option ParserData
  | .url buf => d.urlCb parser buf
  | .headerField buf => d.headerFieldCb buf
  | .headerValue buf => d.headerValueCb buf
  | .body buf => d.bodyCb buf

/-- The callbacks of one message, from `new_http_request`. -/
def build (parser : HttpParser) (cbs : List DataCb) : Option ParserData :=
  cbs.foldlM (call parser) { heap := {}, request := newHttpRequest }

end ParserData

/-- A request whose headers are a list of names and values. -/
structure View where
  method : Option String
  url : Option Bytes
  body : Option Bytes
  flags : Nat
  httpMajor : Nat
  httpMinor : Nat
  headers : List (Option Bytes × Option Bytes)
  deriving DecidableEq, Repr

/-- A header's name and value. -/
def HttpHeader.entry (header : HttpHeader) : Option Bytes × Option Bytes :=
  (header.name, header.value)

/-- The nodes are the list of headers, and hold the entries. -/
structure HeaderList (h : Heap HttpHeader) (first : Option Addr) (nodes : List Addr)
    (entries : List (Option Bytes × Option Bytes)) : Prop where
  path : Segment (h.field HttpHeader.next) first nodes none
  distinct : nodes.Nodup
  holds : nodes.map (h.field HttpHeader.entry) = entries.map some

/-- The request reads as the view. -/
structure Shows (d : ParserData) (v : View) : Prop where
  headers : ∃ nodes, HeaderList d.heap d.request.headers nodes v.headers
  request : d.request =
    { method := v.method, url := v.url, body := v.body, flags := v.flags,
      httpMajor := v.httpMajor, httpMinor := v.httpMinor, headers := d.request.headers }

namespace View

def new : View :=
  { method := none, url := none, body := none, flags := 0, httpMajor := 0, httpMinor := 0,
    headers := [] }

/-- A callback, on the list of headers: a name begins an entry, a value is the
    last entry's. -/
def call (parser : HttpParser) (v : View) : DataCb → View
  | .url buf =>
    { v with
      method := some parser.method
      httpMajor := parser.httpMajor
      httpMinor := parser.httpMinor
      url := some buf }
  | .headerField buf => { v with headers := v.headers ++ [(some buf, none)] }
  | .headerValue buf =>
    { v with headers := v.headers.dropLast ++ (v.headers.getLast?.map fun e => (e.1, some buf)).toList }
  | .body buf => { v with body := some buf }

end View

/-! The linked list of headers. -/

/-- The loop for the last header ends at the last node. -/
theorem lastHeader_eq {h : Heap HttpHeader} {pre : List Addr} {last a : Addr} {fuel : Nat}
    (hs : Segment (h.field HttpHeader.next) (some a) (pre ++ [last]) none)
    (hfuel : pre.length < fuel) : lastHeader h fuel a = some last := by
  induction pre generalizing a fuel with
  | nil =>
    obtain ⟨ha, p, hnext, hnull⟩ := hs
    obtain rfl := Option.some.inj ha
    obtain rfl : p = none := hnull
    obtain ⟨fuel, rfl⟩ := Nat.exists_eq_succ_of_ne_zero (Nat.ne_of_gt hfuel)
    simp [lastHeader, hnext]
  | cons b pre ih =>
    obtain ⟨ha, p, hnext, htail⟩ := hs
    obtain rfl := Option.some.inj ha
    obtain ⟨fuel, rfl⟩ := Nat.exists_eq_succ_of_ne_zero (Nat.ne_zero_of_lt hfuel)
    obtain ⟨c, rfl⟩ : ∃ c, p = some c := by
      cases pre with
      | nil => exact ⟨_, htail.head⟩
      | cons c pre => exact ⟨_, htail.head⟩
    have hrest := ih htail (Nat.lt_of_succ_lt_succ hfuel)
    simp [lastHeader, hnext, hrest]

namespace HeaderList
variable {h : Heap HttpHeader} {first : Option Addr} {nodes : List Addr} {a : Addr}
  {entries : List (Option Bytes × Option Bytes)} {e : Option Bytes × Option Bytes}

/-- The last node of a list, what it holds, and the way to it. -/
theorem last (hl : HeaderList h first (nodes ++ [a]) entries) :
    ∃ header rest, h.load a = some header ∧ header.next = none ∧
      entries = rest ++ [header.entry] ∧ nodes.map (h.field HttpHeader.entry) = rest.map some ∧
      ∃ head, first = some head ∧ lastHeader h h.fresh head = some a := by
  obtain ⟨r, has, hr, p, hnext, hnull⟩ := segment_append.mp hl.path
  obtain rfl : p = none := hnull
  obtain ⟨header, hload, hnone⟩ := Heap.exists_load hnext
  have hentry := Heap.field_eq HttpHeader.entry hload
  have hholds := hl.holds
  rw [List.map_append, List.map_singleton, hentry] at hholds
  obtain ⟨rest, lasts, rfl, hrest, hlasts⟩ := List.map_eq_append_iff.mp hholds.symm
  obtain ⟨e, rfl, he⟩ := List.map_eq_singleton_iff.mp hlasts
  obtain rfl := Option.some.inj he
  obtain ⟨head, hhead⟩ : ∃ head, first = some head := by
    cases nodes with
    | nil => exact ⟨_, hl.path.head⟩
    | cons b nodes => exact ⟨_, hl.path.head⟩
  refine ⟨header, rest, hload, hnone, rfl, hrest.symm, head, hhead, ?_⟩
  have hlen := Heap.segment_length_le hl.path hl.distinct
  rw [List.length_append, List.length_singleton] at hlen
  exact lastHeader_eq (hhead ▸ hl.path) hlen

/-- The last node's name or value is written. -/
theorem writeLast (hl : HeaderList h first (nodes ++ [a]) (entries ++ [e])) {header : HttpHeader}
    (hnext : header.next = none) :
    HeaderList (h.set a header) first (nodes ++ [a]) (entries ++ [header.entry]) := by
  obtain ⟨old, rest, hload, hold, hentries, hrest, -⟩ := hl.last
  obtain rfl := (List.append_inj' hentries rfl).1
  -- the other nodes are not the last one, and stay as they were
  have hne : ∀ b ∈ nodes, b ≠ a := by
    intro b hb heq
    have hdisjoint := List.disjoint_of_nodup_append hl.distinct
    exact hdisjoint hb (heq ▸ List.mem_singleton_self b)
  have hlast : (h.set a header).load a = some header := Heap.load_set_self (Heap.load_lt hload) _
  have hother : ∀ b ∈ nodes, (h.set a header).load b = h.load b := fun b hb =>
    Heap.load_set_ne (hne b hb) _
  refine ⟨?_, hl.distinct, ?_⟩
  · apply hl.path.congr
    intro b hb
    rcases List.mem_append.mp hb with hb | hb
    · exact congrArg (Option.map _) (hother b hb)
    · obtain rfl := List.mem_singleton.mp hb
      rw [Heap.field_eq _ hlast, Heap.field_eq _ hload, hnext, hold]
  · rw [List.map_append, List.map_singleton, Heap.field_eq _ hlast, List.map_append,
      List.map_singleton, ← hrest]
    exact congrArg (· ++ _) (List.map_congr_left fun b hb => congrArg (Option.map _) (hother b hb))

/-- An empty header is linked in behind the last one. -/
theorem append (hl : HeaderList h first (nodes ++ [a]) entries) {header : HttpHeader}
    (hload : h.load a = some header) :
    HeaderList ((h.push newHttpHeader).set a { header with next := some h.fresh }) first
      (nodes ++ [a] ++ [h.fresh]) (entries ++ [(none, none)]) := by
  have hlt := Heap.segment_lt hl.path
  have ha : a < (h.push newHttpHeader).fresh := by
    rw [Heap.fresh_push]
    exact Nat.lt_succ_of_lt (Heap.load_lt hload)
  have hself := Heap.load_set_self ha { header with next := some h.fresh }
  have hnew : ((h.push newHttpHeader).set a { header with next := some h.fresh }).load h.fresh =
      some newHttpHeader := by
    rw [Heap.load_set_ne (Nat.ne_of_gt (Heap.load_lt hload)), Heap.load_push_new]
  have hother : ∀ b ∈ nodes ++ [a], b ≠ a →
      ((h.push newHttpHeader).set a { header with next := some h.fresh }).load b = h.load b := by
    intro b hb hne
    rw [Heap.load_set_ne hne, Heap.load_push (hlt b hb)]
  obtain ⟨old, -, hold, hnone, -⟩ := hl.last
  obtain rfl : header = old := Option.some.inj (hload.symm.trans hold)
  refine ⟨?_, ?_, ?_⟩
  · -- the path goes on to the new node
    rw [List.append_assoc]
    apply hl.path.link
    · exact Heap.field_eq _ hself
    · rw [Heap.field_eq _ hnew, Heap.field_eq _ hload, hnone]
      rfl
    · intro b hb
      rw [List.append_nil] at hb
      refine congrArg (Option.map _) (hother b (List.mem_append_left _ hb) ?_)
      intro heq
      have hdisjoint := List.disjoint_of_nodup_append hl.distinct
      exact hdisjoint hb (heq ▸ List.mem_singleton_self b)
  · apply List.Nodup.append hl.distinct (List.nodup_singleton _)
    intro b hb hmem
    obtain rfl := List.mem_singleton.mp hmem
    exact Nat.lt_irrefl _ (hlt _ hb)
  · have hkept : (nodes ++ [a]).map (((h.push newHttpHeader).set a
        { header with next := some h.fresh }).field HttpHeader.entry) = entries.map some := by
      rw [← hl.holds]
      apply List.map_congr_left
      intro b hb
      by_cases hb' : b = a
      · subst hb'
        rw [Heap.field_eq _ hself, Heap.field_eq _ hload]
        rfl
      · exact congrArg (Option.map _) (hother b hb hb')
    rw [List.map_append, hkept, List.map_singleton, Heap.field_eq _ hnew, List.map_append]
    rfl

end HeaderList

/-- `add_http_header` adds an empty entry and gives its node. -/
theorem addHttpHeader_eq {d : ParserData} {nodes : List Addr}
    {entries : List (Option Bytes × Option Bytes)}
    (hl : HeaderList d.heap d.request.headers nodes entries) :
    ∃ d', d.addHttpHeader = some (d.heap.fresh, d') ∧
      HeaderList d'.heap d'.request.headers (nodes ++ [d.heap.fresh]) (entries ++ [(none, none)]) ∧
      d'.request = { d.request with headers := d'.request.headers } := by
  rcases List.eq_nil_or_concat nodes with rfl | ⟨pre, last, hconcat⟩
  · -- the first header
    have hnull : d.request.headers = none := hl.path
    have hempty : entries = [] := List.map_eq_nil_iff.mp hl.holds.symm
    refine ⟨⟨d.heap.push newHttpHeader, { d.request with headers := some d.heap.fresh }⟩, ?_, ?_, rfl⟩
    · rw [ParserData.addHttpHeader, hnull]
      rfl
    · have hnew := Heap.load_push_new d.heap newHttpHeader
      refine ⟨⟨rfl, none, Heap.field_eq _ hnew, rfl⟩, List.nodup_singleton _, ?_⟩
      rw [hempty]
      exact congrArg (fun x => [x]) (Heap.field_eq _ hnew)
  · rw [List.concat_eq_append] at hconcat
    subst hconcat
    obtain ⟨header, -, hload, -, -, -, head, hhead, hlast⟩ := hl.last
    have hlt : last < (d.heap.push newHttpHeader).fresh := by
      rw [Heap.fresh_push]
      exact Nat.lt_succ_of_lt (Heap.load_lt hload)
    refine ⟨⟨(d.heap.push newHttpHeader).set last { header with next := some d.heap.fresh },
      d.request⟩, ?_, hl.append hload, rfl⟩
    rw [ParserData.addHttpHeader, hhead]
    simp [hlast, Heap.load_push (Heap.load_lt hload), hload, Heap.store_eq hlt]

namespace Shows
variable {d : ParserData} {v : View}

theorem headerFieldCb (hs : Shows d v) (buf : Bytes) :
    ∃ d', d.headerFieldCb buf = some d' ∧
      Shows d' { v with headers := v.headers ++ [(some buf, none)] } := by
  obtain ⟨nodes, hl⟩ := hs.headers
  obtain ⟨d₁, hadd, hl₁, hrequest⟩ := addHttpHeader_eq hl
  obtain ⟨header, rest, hload, hnext, hentries, -, -⟩ := hl₁.last
  have hempty : header.entry = (none, none) := by
    have hlasts := (List.append_inj' hentries rfl).2
    exact (List.singleton_injective hlasts).symm
  refine ⟨{ d₁ with heap := d₁.heap.set d.heap.fresh { header with name := some buf } }, ?_, ?_, ?_⟩
  · rw [ParserData.headerFieldCb, hadd]
    simp [hload, Heap.store_eq (Heap.load_lt hload)]
  · have hvalue : header.value = none := congrArg Prod.snd hempty
    have hentry : HttpHeader.entry { header with name := some buf } = (some buf, none) := by
      rw [HttpHeader.entry, hvalue]
    refine ⟨nodes ++ [d.heap.fresh], ?_⟩
    rw [← hentry]
    exact hl₁.writeLast hnext
  · show d₁.request = _
    rw [hrequest, hs.request]

theorem headerValueCb {entries : List (Option Bytes × Option Bytes)} {name value : Option Bytes}
    (hs : Shows d v) (hv : v.headers = entries ++ [(name, value)]) (buf : Bytes) :
    ∃ d', d.headerValueCb buf = some d' ∧
      Shows d' { v with headers := entries ++ [(name, some buf)] } := by
  obtain ⟨nodes, hl⟩ := hs.headers
  rw [hv] at hl
  obtain ⟨pre, last, rfl⟩ : ∃ pre last, nodes = pre ++ [last] := by
    rcases List.eq_nil_or_concat nodes with rfl | ⟨pre, last, hconcat⟩
    · have hnil := List.map_eq_nil_iff.mp hl.holds.symm
      exact absurd hnil (List.append_ne_nil_of_right_ne_nil _ (List.cons_ne_nil _ _))
    · exact ⟨pre, last, hconcat.trans List.concat_eq_append⟩
  obtain ⟨header, rest, hload, hnext, hentries, -, head, hhead, hlast⟩ := hl.last
  have hentry : header.entry = (name, value) :=
    (List.singleton_injective (List.append_inj' hentries rfl).2).symm
  have hname : header.name = name := congrArg Prod.fst hentry
  refine ⟨{ d with heap := d.heap.set last { header with value := some buf } }, ?_, ?_, hs.request⟩
  · rw [ParserData.headerValueCb, hhead]
    simp [hlast, hload, Heap.store_eq (Heap.load_lt hload)]
  · have hwritten : HttpHeader.entry { header with value := some buf } = (name, some buf) := by
      rw [HttpHeader.entry, hname]
    refine ⟨pre ++ [last], ?_⟩
    rw [← hwritten]
    exact hl.writeLast hnext

/-- A callback does to the request what it does to the view; a value needs a
    header before it. -/
theorem call (parser : HttpParser) (hs : Shows d v) (cb : DataCb)
    (hvalue : ∀ buf, cb = .headerValue buf → v.headers ≠ []) :
    ∃ d', d.call parser cb = some d' ∧ Shows d' (v.call parser cb) := by
  cases cb with
  | url buf => exact ⟨_, rfl, hs.headers, by rw [hs.request]; rfl⟩
  | body buf => exact ⟨_, rfl, hs.headers, by rw [hs.request]; rfl⟩
  | headerField buf => exact hs.headerFieldCb buf
  | headerValue buf =>
    rcases List.eq_nil_or_concat v.headers with hnil | ⟨entries, ⟨name, value⟩, hconcat⟩
    · exact absurd hnil (hvalue buf rfl)
    · rw [List.concat_eq_append] at hconcat
      have hview : v.call parser (.headerValue buf) =
          { v with headers := entries ++ [(name, some buf)] } := by
        simp [View.call, hconcat]
      rw [hview]
      exact hs.headerValueCb hconcat buf

/-- Callbacks in turn; every value has a name before it, or a header is there already. -/
theorem callOrdered (parser : HttpParser) (hs : Shows d v) {cbs : List DataCb}
    (hvalue : v.headers ≠ [] ∨ ∀ pre buf post, cbs = pre ++ .headerValue buf :: post →
      ∃ name, .headerField name ∈ pre) :
    ∃ d', cbs.foldlM (ParserData.call parser) d = some d' ∧
      Shows d' (cbs.foldl (View.call parser) v) := by
  induction cbs generalizing d v with
  | nil => exact ⟨d, rfl, hs⟩
  | cons cb cbs ih =>
    have hfirst : ∀ buf, cb = .headerValue buf → v.headers ≠ [] := by
      intro buf heq
      rcases hvalue with hne | hordered
      · exact hne
      · obtain ⟨name, hname⟩ := hordered [] buf cbs (congrArg (· :: cbs) heq)
        exact absurd hname List.not_mem_nil
    obtain ⟨d₁, hcall, hs₁⟩ := hs.call parser cb hfirst
    have hrest : (v.call parser cb).headers ≠ [] ∨ ∀ pre buf post,
        cbs = pre ++ .headerValue buf :: post → ∃ name, .headerField name ∈ pre := by
      by_cases hne : (v.call parser cb).headers = []
      · right
        intro pre buf post heq
        rcases hvalue with hheaders | hordered
        · exact absurd hne (by cases cb <;> simp [View.call, hheaders])
        · obtain ⟨name, hname⟩ := hordered (cb :: pre) buf post (congrArg (cb :: ·) heq)
          rcases List.mem_cons.mp hname with rfl | hname
          · exact absurd hne (List.append_ne_nil_of_right_ne_nil _ (List.cons_ne_nil _ _))
          · exact ⟨name, hname⟩
      · exact Or.inl hne
    obtain ⟨d', hcalls, hs'⟩ := ih hs₁ hrest
    refine ⟨d', ?_, hs'⟩
    rw [List.foldlM_cons, hcall]
    exact hcalls

/-- What `new_http_request` gives. -/
theorem new : Shows { heap := {}, request := newHttpRequest } View.new :=
  ⟨⟨[], rfl, List.nodup_nil, rfl⟩, rfl⟩

/-- A header whose name and value come in one piece each. -/
theorem pair (parser : HttpParser) (hs : Shows d v) (p : Bytes × Bytes) :
    ∃ d', [DataCb.headerField p.1, .headerValue p.2].foldlM (ParserData.call parser) d = some d' ∧
      Shows d' { v with headers := v.headers ++ [(some p.1, some p.2)] } := by
  obtain ⟨d₁, hfield, hs₁⟩ := hs.headerFieldCb p.1
  have hlast : View.headers { v with headers := v.headers ++ [(some p.1, none)] } =
      v.headers ++ [(some p.1, none)] := rfl
  obtain ⟨d₂, hvalue, hs₂⟩ := hs₁.headerValueCb hlast p.2
  refine ⟨d₂, ?_, hs₂⟩
  simp only [List.foldlM_cons, List.foldlM_nil, ParserData.call, hfield, Option.bind_eq_bind,
    Option.bind_some, hvalue]
  rfl

theorem pairs (parser : HttpParser) (hs : Shows d v) (ps : List (Bytes × Bytes)) :
    ∃ d', (ps.flatMap fun p => [DataCb.headerField p.1, .headerValue p.2]).foldlM
        (ParserData.call parser) d = some d' ∧
      Shows d' { v with headers := v.headers ++ ps.map fun p => (some p.1, some p.2) } := by
  induction ps generalizing d v with
  | nil => exact ⟨d, rfl, by simpa using hs⟩
  | cons p ps ih =>
    obtain ⟨d₁, hpair, hs₁⟩ := hs.pair parser p
    obtain ⟨d₂, hpairs, hs₂⟩ := ih hs₁
    refine ⟨d₂, ?_, ?_⟩
    · rw [List.flatMap_cons, List.foldlM_append, hpair]
      exact hpairs
    · simpa using hs₂

end Shows

/-- Headers that come as one name and one value each make an acyclic list of as many
    entries, in order; and `add_http_header` puts a new empty entry behind any such
    list, whose entries stay as they are. -/
theorem header_pairs_listed (parser : HttpParser) (ps : List (Bytes × Bytes)) :
    (∃ d nodes,
      ParserData.build parser (ps.flatMap fun p => [.headerField p.1, .headerValue p.2]) = some d ∧
      HeaderList d.heap d.request.headers nodes (ps.map fun p => (some p.1, some p.2)) ∧
      nodes.length = ps.length) ∧
    ∀ (d : ParserData) (nodes : List Addr) (entries : List (Option Bytes × Option Bytes)),
      HeaderList d.heap d.request.headers nodes entries →
      ∃ d', d.addHttpHeader = some (d.heap.fresh, d') ∧ d.heap.fresh ∉ nodes ∧
        HeaderList d'.heap d'.request.headers (nodes ++ [d.heap.fresh]) (entries ++ [(none, none)]) ∧
        ∀ a ∈ nodes, d'.heap.field HttpHeader.entry a = d.heap.field HttpHeader.entry a := by
  refine ⟨?_, fun d nodes entries hl => ?_⟩
  · obtain ⟨d, hbuild, hs⟩ := Shows.new.pairs parser ps
    obtain ⟨nodes, hl⟩ := hs.headers
    refine ⟨d, nodes, hbuild, hl, ?_⟩
    have hlength := congrArg List.length hl.holds
    simpa [View.new] using hlength
  · obtain ⟨d', hadd, hl', -⟩ := addHttpHeader_eq hl
    have hfresh : d.heap.fresh ∉ nodes :=
      fun hmem => Nat.lt_irrefl _ (Heap.segment_lt hl.path _ hmem)
    refine ⟨d', hadd, hfresh, hl', fun a ha => ?_⟩
    have hkept := hl'.holds
    rw [List.map_append, List.map_append, ← hl.holds] at hkept
    exact List.map_inj_left.mp (List.append_inj_left' hkept rfl) a ha

end RubbishStore.Socket
