import RubbishStore.Socket.HttpServer

/- What the parser of `httpserver.c` is handed. All clients are read into one
   buffer, and `strlen` finds the end of a request in it: at the first NUL, be that
   one the client's own, or one that an earlier request or the fresh stack has left
   further on. `handeds` says what that comes to, request by request, and `Clean`
   when it comes to the requests themselves. -/
namespace RubbishStore.Socket
open RubbishStore.Lib

namespace Server

/-- What was read, read by read. -/
def requests (t : List Op) : List Bytes :=
  t.filterMap fun
    | .read _ bytes => some bytes
    | _ => none

/-- What the parser was handed, run by run. -/
def parses (t : List Op) : List (Option Bytes) :=
  t.filterMap fun
    | .parse text => some text
    | _ => none

/-- The requests that have reached the parser: all but the last one at most. -/
def handled (t : List Op) : List Bytes := (requests t).take (parses t).length

/-- The parser is handed the bytes that were read. -/
def Exact (t : List Op) : Prop := parses t = (handled t).map some

/-- What is handed over for these requests, from this buffer on. -/
def handeds : Bytes → List Bytes → List (Option Bytes)
  | _, [] => []
  | buf, bytes :: rest => handed (overwrite buf bytes) :: handeds (overwrite buf bytes) rest

/-- No request has a NUL in it, and each finds one behind it in the buffer. -/
def Clean : Bytes → List Bytes → Prop
  | _, [] => True
  | buf, bytes :: rest =>
    (0 ∉ bytes ∧ buf[bytes.length]? = some 0) ∧ Clean (overwrite buf bytes) rest

section
variable {buf bytes : Bytes} {l : Listening} {t u : List Op}

@[simp] theorem requests_append (t u : List Op) :
    requests (t ++ u) = requests t ++ requests u := List.filterMap_append

@[simp] theorem parses_append (t u : List Op) :
    parses (t ++ u) = parses t ++ parses u := List.filterMap_append

/-- One request is handed over as it is. -/
theorem handed_eq_iff :
    handed (overwrite buf bytes) = some bytes ↔ 0 ∉ bytes ∧ buf[bytes.length]? = some 0 := by
  have hbehind : buf[bytes.length]? = (buf.drop bytes.length).head? := by
    rw [List.head?_drop]
  rw [hbehind, ← cstring_append_iff, handed, overwrite]
  by_cases hzero : 0 ∈ bytes ++ buf.drop bytes.length
  · rw [if_pos hzero, Option.some_inj]
    exact ⟨fun hstring => ⟨hzero, hstring⟩, fun h => h.2⟩
  · rw [if_neg hzero]
    exact ⟨fun h => absurd h (by simp), fun h => absurd h.1 hzero⟩

/-- All of them are. -/
theorem handeds_eq_map_iff (buf : Bytes) (requests : List Bytes) :
    handeds buf requests = requests.map some ↔ Clean buf requests := by
  induction requests generalizing buf with
  | nil => exact ⟨fun _ => trivial, fun _ => rfl⟩
  | cons bytes rest ih =>
    rw [handeds, List.map_cons, List.cons.injEq, Clean, handed_eq_iff, ih]

theorem handeds_length (buf : Bytes) (requests : List Bytes) :
    (handeds buf requests).length = requests.length := by
  induction requests generalizing buf with
  | nil => rfl
  | cons bytes rest ih => rw [handeds, List.length_cons, List.length_cons, ih]

theorem handeds_concat (buf : Bytes) (requests : List Bytes) (bytes : Bytes) :
    handeds buf (requests ++ [bytes]) = handeds buf requests ++
      [handed (overwrite (requests.foldl overwrite buf) bytes)] := by
  induction requests generalizing buf with
  | nil => rfl
  | cons first rest ih =>
    show handed (overwrite buf first) :: handeds _ (rest ++ [bytes]) = _
    rw [ih]
    rfl

/-- What the trace says of the buffer, and of the parser's runs. -/
structure Buffered (buf₀ buf : Bytes) (t : List Op) : Prop where
  buf_eq : buf = (requests t).foldl overwrite buf₀
  parses_eq : parses t = handeds buf₀ (requests t)

/-- What has reached the parser is what the buffer held. -/
def Parsed (buf₀ : Bytes) (t : List Op) : Prop := parses t = handeds buf₀ (handled t)

theorem parsed_of {buf₀ : Bytes} {reached unparsed : List Bytes}
    (hrequests : requests t = reached ++ unparsed) (hparses : parses t = handeds buf₀ reached) :
    Parsed buf₀ t := by
  have hhandled : handled t = reached := by
    rw [handled, hparses, handeds_length, hrequests, List.take_left]
  rw [Parsed, hhandled, hparses]

theorem Parsed.exact_iff {buf₀ : Bytes} (h : Parsed buf₀ t) :
    Exact t ↔ Clean buf₀ (handled t) := by
  rw [Exact, h, handeds_eq_map_iff]

theorem Buffered.parsed {buf₀ : Bytes} (h : Buffered buf₀ buf t) : Parsed buf₀ t :=
  parsed_of (List.append_nil _).symm h.parses_eq

theorem Buffered.call {buf₀ : Bytes} (h : Buffered buf₀ buf t) (hrequests : requests u = [])
    (hparses : parses u = []) : Buffered buf₀ buf (t ++ u) where
  buf_eq := by rw [requests_append, hrequests, List.append_nil, h.buf_eq]
  parses_eq := by
    rw [requests_append, parses_append, hrequests, hparses, List.append_nil, List.append_nil,
      h.parses_eq]

/-- A request is read and parsed. -/
theorem Buffered.request {buf₀ : Bytes} (h : Buffered buf₀ buf t)
    (hrequests : requests u = [bytes]) (hparses : parses u = [handed (overwrite buf bytes)]) :
    Buffered buf₀ (overwrite buf bytes) (t ++ u) where
  buf_eq := by
    rw [requests_append, hrequests, List.foldl_concat, ← h.buf_eq]
  parses_eq := by
    rw [requests_append, parses_append, hrequests, hparses, handeds_concat, ← h.buf_eq,
      h.parses_eq]

/-- A request is read, and no more. -/
theorem Buffered.unparsed {buf₀ : Bytes} (h : Buffered buf₀ buf t)
    (hrequests : requests u = [bytes]) (hparses : parses u = []) : Parsed buf₀ (t ++ u) := by
  have hall : requests (t ++ u) = requests t ++ [bytes] := by rw [requests_append, hrequests]
  refine parsed_of hall ?_
  rw [parses_append, hparses, List.append_nil, h.parses_eq]

end

section
variable {K : Kernel} {l : Listening} {s : Server} {i : Nat} {sockfd : Fd} {buf₀ : Bytes}

theorem buffered_serve (h : Buffered buf₀ s.buf s.sys.trace) :
    Holds (fun s' => Buffered buf₀ s'.buf s'.sys.trace) (fun x => Parsed buf₀ x.sys.trace)
      (httpServe K i sockfd s) := by
  refine httpServe_holds ?_ ?_ ?_ ?_ ?_ ?_
  · intro bytes _
    exact h.request rfl rfl
  · exact h.parsed
  · intro _
    exact h.unparsed rfl rfl
  · -- shown in part, and not parsed
    intro bytes sent _
    exact h.unparsed rfl rfl
  · intro bytes sent _
    exact (h.request rfl rfl).parsed
  · -- the hang-up reads nothing, and the old contents are parsed again
    have heof : Buffered buf₀ (overwrite s.buf []) (s.sys.trace ++ [.read sockfd [], .close sockfd,
        .fdClr sockfd, .parse (handed s.buf), .write sockfd []]) := h.request rfl rfl
    exact heof.parsed

theorem buffered_newClient (h : Buffered buf₀ s.buf s.sys.trace) :
    Holds (fun s' => Buffered buf₀ s'.buf s'.sys.trace) (fun x => Parsed buf₀ x.sys.trace)
      (s.newClient K) := by
  apply newClient_holds
  · intro connfd i s' _ hj
    rw [hj.buf, hj.trace, List.append_assoc]
    exact h.call rfl rfl
  · intro _
    exact h.parsed
  · intro connfd _ _ _
    exact (h.call (u := [.accept connfd]) rfl rfl).parsed

end

/-- The parser is handed the bytes that were read, no more and no less, exactly if
    all that was read is clean. -/
theorem requests_parsed_iff_clean (K : Kernel) (l : Listening) (n : Nat) :
    Holds (fun s => Exact s.sys.trace ↔ Clean l.buf (handled s.sys.trace))
      (fun x => Exact x.sys.trace ↔ Clean l.buf (handled x.sys.trace))
      (iterate (httpserver K l) n (init l)) := by
  have hkeeps : Keeps K l.listenfd (httpServe K)
      (fun s => Buffered l.buf s.buf s.sys.trace) (fun x => Parsed l.buf x.sys.trace) :=
    { isset := fun s fd h _ _ => h.call rfl rfl
      nready := fun s n h => h
      serve := fun s i fd h _ _ => buffered_serve h
      polled := fun s rset h => (h.call (u := [.select]) rfl rfl).call rfl rfl
      newClient := fun s h => buffered_newClient h
      error := fun s h => h.parsed }
  have hinit : Buffered l.buf (init l).buf (init l).sys.trace := ⟨rfl, rfl⟩
  refine Holds.mono (Holds.iterate (fun s hs => hkeeps.round hs) hinit n) ?_ ?_
  · exact fun s hs => hs.parsed.exact_iff
  · exact fun x hx => Parsed.exact_iff hx

/-- Two clients, one after the other: the first one sends three times `b`, the
    second one once the letter B. -/
def twoClients (b : UInt8) : Kernel :=
  .scripted (fun k fd => if k < 5 ∨ k = 14 then fd = 3 else fd = 4)
    fun k => if k < 14 then [b, b, b] else [66]

/-- What the parser is handed of the second one's request depends on the first one. -/
theorem residue_parsed :
    Holds
      (fun s => requests s.sys.trace = [[65, 65, 65], [66]] ∧
        parses s.sys.trace = [some [65, 65, 65], some [66, 65, 65]])
      (fun _ => False) (iterate (httpserver (twoClients 65) .usual) 4 (init .usual)) ∧
    Holds
      (fun s => requests s.sys.trace = [[67, 67, 67], [66]] ∧
        parses s.sys.trace = [some [67, 67, 67], some [66, 67, 67]])
      (fun _ => False) (iterate (httpserver (twoClients 67) .usual) 4 (init .usual)) := by
  decide +kernel

end Server

end RubbishStore.Socket
