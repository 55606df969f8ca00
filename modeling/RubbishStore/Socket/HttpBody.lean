import Mathlib.Algebra.Group.Nat.Defs
import RubbishStore.Socket.HttpRequest

/- The bodies in `http_parser_execute`: chunked ones, ones with a `Content-Length`, and
   ones that go on to the end of the connection; `strict` is `HTTP_PARSER_STRICT`. The
   parser is called with one piece of the stream after another and skips through the data
   of a chunk as far as the piece goes. `plain` is the same machine byte by byte (`loop_plain`),
   so that the pieces do together what one call does with all of them (`feed_execute`). -/
namespace RubbishStore.Socket.HttpBody

/-- The states of a body, and the two that it is left for. -/
inductive State where
  | chunk_size_start
  | chunk_size
  | chunk_parameters
  | chunk_size_almost_done
  | chunk_data
  | chunk_data_almost_done
  | chunk_data_done
  | body_identity
  | body_identity_eof
  /-- with `F_TRAILING`: the trailers follow -/
  | header_field_start
  /-- `NEW_MESSAGE()` -/
  | new_message
  deriving DecidableEq, Repr

inductive Errno where
  | INVALID_EOF_STATE
  | HEADER_OVERFLOW
  | INVALID_CONTENT_LENGTH
  | INVALID_CHUNK_SIZE
  | STRICT
  deriving DecidableEq, Repr

/-- `HPE_OK` is `none`. -/
structure Parser where
  state : State
  content_length : Nat := 0
  nread : Nat := 0
  http_errno : Option Errno := none
  deriving DecidableEq, Repr

/-- A notify callback; `on_chunk_header` sees the length. -/
inductive Notice where
  | chunk_header (length : Nat)
  | chunk_complete
  | message_complete
  deriving DecidableEq, Repr

/-- The callbacks, which return 0. -/
inductive Event where
  | body (buf : Bytes)
  | notice (n : Notice)
  deriving DecidableEq, Repr

/-- How a call returns: `rest` is what it has not used. -/
structure Result where
  parser : Parser
  events : List Event
  rest : Bytes
  deriving DecidableEq, Repr

def CR : UInt8 := 13
def LF : UInt8 := 10

def ULLONG_MAX : Nat := 2 ^ 64 - 1

def HTTP_MAX_HEADER_SIZE : Nat := 80 * 1024

/-- `unhex`; `none` is -1. -/
def unhex (ch : UInt8) : Option Nat :=
  if 48 ≤ ch ∧ ch ≤ 57 then some (ch.toNat - 48)
  else if 65 ≤ ch ∧ ch ≤ 70 then some (ch.toNat - 55)
  else if 97 ≤ ch ∧ ch ≤ 102 then some (ch.toNat - 87)
  else none

/-- The body is over. -/
def State.over : State → Bool
  | .header_field_start | .new_message => true
  | _ => false

/-- `PARSING_HEADER` -/
def State.parsingHeader : State → Bool
  | .chunk_size_start | .chunk_size | .chunk_parameters | .chunk_size_almost_done => true
  | _ => false

namespace Parser

def fail (p : Parser) (e : Errno) : Parser := { p with http_errno := some e }

/-- `COUNT_HEADER_SIZE(1)`, where it counts -/
def count (p : Parser) : Parser :=
  if p.state.parsingHeader then
    let p := { p with nread := p.nread + 1 }
    if HTTP_MAX_HEADER_SIZE < p.nread then p.fail .HEADER_OVERFLOW else p
  else p

/-- A byte in a state that takes one at a time. -/
def control (strict : Bool) (p : Parser) (ch : UInt8) : Parser × List Notice :=
  match p.state with
  | .chunk_size_start =>
    match unhex ch with
    | none => (p.fail .INVALID_CHUNK_SIZE, [])
    | some unhex_val => ({ p with content_length := unhex_val, state := .chunk_size }, [])
  | .chunk_size =>
    if ch = CR then ({ p with state := .chunk_size_almost_done }, [])
    else
      match unhex ch with
      | none =>
        if ch = 59 ∨ ch = 32 then ({ p with state := .chunk_parameters }, [])
        else (p.fail .INVALID_CHUNK_SIZE, [])
      | some unhex_val =>
        if (ULLONG_MAX - 16) / 16 < p.content_length then (p.fail .INVALID_CONTENT_LENGTH, [])
        else ({ p with content_length := p.content_length * 16 + unhex_val }, [])
  | .chunk_parameters => if ch = CR then ({ p with state := .chunk_size_almost_done }, []) else (p, [])
  | .chunk_size_almost_done =>
    if strict ∧ ch ≠ LF then (p.fail .STRICT, [])
    else
      ({ p with nread := 0, state := if p.content_length = 0 then .header_field_start else .chunk_data },
        [.chunk_header p.content_length])
  | .chunk_data_almost_done =>
    if strict ∧ ch ≠ CR then (p.fail .STRICT, []) else ({ p with state := .chunk_data_done }, [])
  | .chunk_data_done =>
    if strict ∧ ch ≠ LF then (p.fail .STRICT, [])
    else ({ p with nread := 0, state := .chunk_size_start }, [.chunk_complete])
  | _ => (p, [])

/-- `to_read` bytes of a body: the state behind the last one is `done`. -/
def read (p : Parser) (to_read : Nat) (done : State) : Parser :=
  { p with
    content_length := p.content_length - to_read
    state := if p.content_length - to_read = 0 then done else p.state }

end Parser

/-- Callbacks in front of the others. -/
def Result.after (r : Result) (events : List Event) : Result := { r with events := events ++ r.events }

/-- The loop over the bytes, from one of them on. `mark` holds the bytes since `body_mark`. -/
def loop (strict : Bool) (p : Parser) (mark : Option Bytes) (data : Bytes) : Result :=
  match data with
  | [] => ⟨p, mark.toList.map .body, []⟩
  | ch :: data =>
    if p.state.over then ⟨p, [], ch :: data⟩
    else
      let p := p.count
      if p.http_errno.isSome then ⟨p, [], ch :: data⟩
      else
        match p.state with
        | .chunk_data =>
          let to_read := min p.content_length (data.length + 1)
          loop strict (p.read to_read .chunk_data_almost_done)
            (some (mark.getD [] ++ (ch :: data).take to_read)) (data.drop (to_read - 1))
        | .body_identity =>
          let to_read := min p.content_length (data.length + 1)
          let body := mark.getD [] ++ (ch :: data).take to_read
          let p := p.read to_read .new_message
          if p.content_length = 0 then
            (loop strict p none (data.drop (to_read - 1))).after [.body body, .notice .message_complete]
          else loop strict p (some body) (data.drop (to_read - 1))
        | .body_identity_eof => loop strict p (some (mark.getD [] ++ ch :: data)) []
        | .chunk_data_almost_done =>
          let (q, notices) := p.control strict ch
          if q.http_errno.isSome then ⟨q, [], ch :: data⟩
          else (loop strict q none data).after (mark.toList.map .body ++ notices.map .notice)
        | _ =>
          let (q, notices) := p.control strict ch
          if q.http_errno.isSome then ⟨q, [], ch :: data⟩
          else (loop strict q mark data).after (notices.map .notice)
  termination_by data.length
  decreasing_by all_goals (simp_wf <;> omega)

/-- `http_parser_execute`, called in a state of a body; nothing to read is the end of the connection. -/
def execute (strict : Bool) (p : Parser) (data : Bytes) : Result :=
  if p.http_errno.isSome then ⟨p, [], data⟩
  else
    match data with
    | [] =>
      match p.state with
      | .body_identity_eof => ⟨p, [.notice .message_complete], []⟩
      | .new_message => ⟨p, [], []⟩
      | _ => ⟨p.fail .INVALID_EOF_STATE, [], []⟩
    | ch :: data => loop strict p none (ch :: data)

/-! The same byte by byte. -/

inductive Token where
  | data (ch : UInt8)
  | notice (n : Notice)
  deriving DecidableEq, Repr

def Event.tokens : Event → List Token
  | .body buf => buf.map .data
  | .notice n => [.notice n]

/-- What the callbacks say, without where the data is cut. -/
def tokens (events : List Event) : List Token := events.flatMap Event.tokens

/-- The state behind the last byte of the data. -/
def State.done : State → State
  | .chunk_data => .chunk_data_almost_done
  | .body_identity => .new_message
  | s => s

def State.atEnd : State → List Notice
  | .body_identity => [.message_complete]
  | _ => []

def Parser.byte (strict : Bool) (p : Parser) (ch : UInt8) : Parser × List Token :=
  match p.state with
  | .chunk_data | .body_identity =>
    let q := p.read 1 p.state.done
    (q, .data ch :: if q.content_length = 0 then p.state.atEnd.map .notice else [])
  | .body_identity_eof => (p, [.data ch])
  | _ =>
    let (q, notices) := p.control strict ch
    (q, notices.map .notice)

structure Plain where
  parser : Parser
  tokens : List Token
  rest : Bytes
  deriving DecidableEq, Repr

def Plain.after (r : Plain) (ts : List Token) : Plain := { r with tokens := ts ++ r.tokens }

/-- Byte by byte, to the end of the data, the end of the body, or an error. -/
def plain (strict : Bool) (p : Parser) : Bytes → Plain
  | [] => ⟨p, [], []⟩
  | ch :: data =>
    if p.state.over ∨ p.http_errno.isSome then ⟨p, [], ch :: data⟩
    else if p.count.http_errno.isSome then ⟨p.count, [], ch :: data⟩
    else
      let (q, ts) := p.count.byte strict ch
      if q.http_errno.isSome then ⟨q, [], ch :: data⟩ else (plain strict q data).after ts

/-- A parser that has more to read where it reads a length. -/
structure Parser.Ok (p : Parser) : Prop where
  errno : p.http_errno = none
  more : p.state = .chunk_data ∨ p.state = .body_identity → p.content_length ≠ 0

/-- Only where there is data, or a chunk has just ended, a mark is set. -/
def MarkOk (p : Parser) (mark : Option Bytes) : Prop :=
  mark = none ∨ p.state ∈ [.chunk_data, .chunk_data_almost_done, .body_identity, .body_identity_eof]

/-- The parser does what is done byte by byte; behind an error the last data may be missing. -/
structure Agrees (r : Result) (mark : Option Bytes) (b : Plain) : Prop where
  parser : r.parser = b.parser
  rest : r.rest = b.rest
  said : b.parser.http_errno = none → tokens r.events = (mark.getD []).map .data ++ b.tokens

section
variable {strict : Bool} {p : Parser}

@[simp] theorem tokens_append (es fs : List Event) : tokens (es ++ fs) = tokens es ++ tokens fs := List.flatMap_append

theorem tokens_notices (notices : List Notice) : tokens (notices.map .notice) = notices.map .notice := by
  induction notices with
  | nil => rfl
  | cons n notices ih => exact congrArg (Token.notice n :: ·) ih

theorem tokens_mark (mark : Option Bytes) : tokens (mark.toList.map .body) = (mark.getD []).map .data := by
  cases mark <;> simp [tokens, Event.tokens]

theorem Plain.after_after (r : Plain) (ts us : List Token) : (r.after us).after ts = r.after (ts ++ us) := by
  simp [Plain.after]

/-- The states that read a length. -/
def State.Reads (s : State) : Prop := s = .chunk_data ∨ s = .body_identity

theorem State.Reads.not_over {s : State} (h : s.Reads) : s.over = false := by rcases h with rfl | rfl <;> rfl

theorem count_reads (h : p.state.Reads) : p.count = p := by
  rw [Parser.count]
  rcases h with h | h <;> rw [h] <;> rfl

/-- One byte of a body whose length is known. -/
theorem plain_read_one {ch : UInt8} {data : Bytes} (h : p.state.Reads) (herrno : p.http_errno = none) :
    plain strict p (ch :: data) = (plain strict (p.read 1 p.state.done) data).after
      (.data ch :: if p.content_length - 1 = 0 then p.state.atEnd.map .notice else []) := by
  have hbyte : p.byte strict ch = (p.read 1 p.state.done,
      .data ch :: if (p.read 1 p.state.done).content_length = 0 then p.state.atEnd.map .notice else []) := by
    rw [Parser.byte]
    rcases h with h | h <;> rw [h]
  have hq : (p.read 1 p.state.done).http_errno = none := herrno
  rw [plain, count_reads h, h.not_over, herrno, hbyte]
  simp only [Bool.false_eq_true, Option.isSome_none, or_self, if_false, hq]
  rfl

theorem read_read {k : Nat} (hk : 0 < k) (hlt : k < p.content_length) :
    (p.read 1 p.state.done).read k (p.read 1 p.state.done).state.done = p.read (k + 1) p.state.done ∧
      (p.read 1 p.state.done).state = p.state := by
  have hmore : ¬p.content_length - 1 = 0 := by omega
  have hstate : (p.read 1 p.state.done).state = p.state := if_neg hmore
  have hsub : p.content_length - 1 - k = p.content_length - (k + 1) := by omega
  refine ⟨?_, hstate⟩
  rw [hstate]
  simp [Parser.read, hmore, hsub]

/-- Data up to the end of the body, at once. -/
theorem plain_read (strict : Bool) {data : Bytes} (rest : Bytes) (h : p.state.Reads) (herrno : p.http_errno = none) (hne : data ≠ [])
    (hle : data.length ≤ p.content_length) :
    plain strict p (data ++ rest) =
      (plain strict (p.read data.length p.state.done) rest).after
        (data.map .data ++ if p.content_length - data.length = 0 then p.state.atEnd.map .notice else []) := by
  induction data generalizing p with
  | nil => exact absurd rfl hne
  | cons ch data ih =>
    rw [List.cons_append, plain_read_one h herrno]
    by_cases hlast : data = []
    · subst hlast
      rfl
    · have hpos : 0 < data.length := List.length_pos_iff.mpr hlast
      have hlt : data.length < p.content_length := hle
      obtain ⟨hread, hstate⟩ := read_read hpos hlt
      have hmore : ¬p.content_length - 1 = 0 := by omega
      have hcontent : (p.read 1 p.state.done).content_length = p.content_length - 1 := rfl
      have hreads : (p.read 1 p.state.done).state.Reads := hstate.symm ▸ h
      rw [ih hreads herrno hlast (by omega), Plain.after_after, hread, hstate, hcontent, if_neg hmore]
      have hsub : p.content_length - 1 - data.length = p.content_length - (data.length + 1) := by omega
      rw [hsub]
      rfl

/-- To the end of the connection. -/
theorem plain_eof {data : Bytes} (hstate : p.state = .body_identity_eof) (herrno : p.http_errno = none) :
    plain strict p data = ⟨p, data.map .data, []⟩ := by
  have hcount : p.count = p := by rw [Parser.count, hstate]; rfl
  induction data with
  | nil => rfl
  | cons ch data ih =>
    have hbyte : p.byte strict ch = (p, [.data ch]) := by rw [Parser.byte, hstate]
    rw [plain, hcount, hbyte, hstate, herrno]
    simp only [State.over, Bool.false_eq_true, Option.isSome_none, or_self, if_false, herrno]
    rw [ih]
    rfl

/-! What a byte in the other states does. -/

/-- The states that take one byte at a time. -/
def State.Controls (s : State) : Prop :=
  s = .chunk_size_start ∨ s = .chunk_size ∨ s = .chunk_parameters ∨ s = .chunk_size_almost_done ∨
    s = .chunk_data_almost_done ∨ s = .chunk_data_done

/-- Where such a byte leads, if it is taken: to data only behind the size of a chunk that has some. -/
theorem control_leads {ch : UInt8} (h : p.state.Controls) :
    (p.control strict ch).1.http_errno = none → (p.control strict ch).1.state.Controls ∨
      (p.control strict ch).1.state = .header_field_start ∨
      ((p.control strict ch).1.state = .chunk_data ∧ (p.control strict ch).1.content_length ≠ 0) := by
  obtain ⟨state, content_length, nread, http_errno⟩ := p
  rcases h with rfl | rfl | rfl | rfl | rfl | rfl
  · simp only [Parser.control]
    split <;> simp [Parser.fail, State.Controls]
  · simp only [Parser.control]
    split
    · simp [State.Controls]
    · split
      · split <;> simp [Parser.fail, State.Controls]
      · split <;> simp [Parser.fail, State.Controls]
  · simp only [Parser.control]
    split <;> simp [State.Controls]
  · simp only [Parser.control]
    split
    · simp [Parser.fail]
    · by_cases hzero : content_length = 0 <;> simp [hzero]
  · simp only [Parser.control]
    split <;> simp [Parser.fail, State.Controls]
  · simp only [Parser.control]
    split <;> simp [Parser.fail, State.Controls]

theorem control_ok {ch : UInt8} (h : p.state.Controls) (herrno : (p.control strict ch).1.http_errno = none) :
    (p.control strict ch).1.Ok := by
  refine ⟨herrno, fun hreads => ?_⟩
  rcases control_leads h herrno with hnext | hnext | ⟨-, hmore⟩
  · rcases hreads with hreads | hreads <;> simp [State.Controls, hreads] at hnext
  · rcases hreads with hreads | hreads <;> simp [hreads] at hnext
  · exact hmore

/-- Only a chunk's end finds a mark. -/
theorem mark_none {mark : Option Bytes} (h : p.state.Controls) (hm : MarkOk p mark)
    (hne : p.state ≠ .chunk_data_almost_done) : mark = none := by
  refine hm.resolve_right fun hmem => ?_
  rcases h with h | h | h | h | h | h <;> simp [h] at hmem hne

theorem Agrees.after {r : Result} {b : Plain} {mark mark' : Option Bytes} {events : List Event} {ts : List Token}
    (h : Agrees r mark' b)
    (hts : tokens events ++ (mark'.getD []).map .data = (mark.getD []).map .data ++ ts) :
    Agrees (r.after events) mark (b.after ts) where
  parser := h.parser
  rest := h.rest
  said herrno := by
    rw [Result.after, tokens_append, h.said herrno, ← List.append_assoc, hts, List.append_assoc]
    rfl

theorem Agrees.of_mark {r : Result} {b : Plain} {mark mark' : Option Bytes} {ts : List Token} (h : Agrees r mark' b)
    (hts : (mark'.getD []).map .data = (mark.getD []).map .data ++ ts) : Agrees r mark (b.after ts) where
  parser := h.parser
  rest := h.rest
  said herrno := by
    rw [h.said herrno, hts, List.append_assoc]
    rfl

/-- An error, or the end of the body: nothing more is said. -/
theorem agrees_stop {q : Parser} {mark : Option Bytes} {data : Bytes} (h : q.http_errno ≠ none ∨ mark = none) :
    Agrees ⟨q, [], data⟩ mark ⟨q, [], data⟩ where
  parser := rfl
  rest := rfl
  said herrno := by
    rw [h.resolve_left (fun hne => hne herrno)]
    rfl

@[simp] theorem count_state : p.count.state = p.state := by
  simp only [Parser.count]
  split
  · split <;> rfl
  · rfl

theorem State.Controls.not_over {s : State} (h : s.Controls) : s.over = false := by
  rcases h with rfl | rfl | rfl | rfl | rfl | rfl <;> rfl

/-- A control byte in the parser: the data of a chunk is reported at the byte behind it. -/
theorem loop_control {mark : Option Bytes} {ch : UInt8} {data : Bytes} (h : p.state.Controls) (hm : MarkOk p mark) :
    loop strict p mark (ch :: data) =
      if p.count.http_errno.isSome then ⟨p.count, [], ch :: data⟩
      else if (p.count.control strict ch).1.http_errno.isSome then ⟨(p.count.control strict ch).1, [], ch :: data⟩
      else (loop strict (p.count.control strict ch).1 none data).after
        (mark.toList.map .body ++ (p.count.control strict ch).2.map .notice) := by
  rw [loop, h.not_over]
  by_cases hne : p.state = .chunk_data_almost_done
  · simp only [Bool.false_eq_true, if_false, count_state, hne]
  · have hnone := mark_none h hm hne
    subst hnone
    rcases h with h | h | h | h | h | h
    all_goals first
      | exact absurd h hne
      | simp only [Bool.false_eq_true, if_false, count_state, h, Option.toList_none, List.map_nil, List.nil_append]

theorem plain_control {ch : UInt8} {data : Bytes} (h : p.state.Controls) (herrno : p.http_errno = none) :
    plain strict p (ch :: data) =
      if p.count.http_errno.isSome then ⟨p.count, [], ch :: data⟩
      else if (p.count.control strict ch).1.http_errno.isSome then ⟨(p.count.control strict ch).1, [], ch :: data⟩
      else (plain strict (p.count.control strict ch).1 data).after ((p.count.control strict ch).2.map .notice) := by
  have hbyte : p.count.byte strict ch =
      ((p.count.control strict ch).1, (p.count.control strict ch).2.map .notice) := by
    rw [Parser.byte, count_state]
    rcases h with h | h | h | h | h | h <;> rw [h]
  rw [plain, h.not_over, herrno, hbyte]
  simp only [Bool.false_eq_true, Option.isSome_none, or_self, if_false]

/-- Behind some bytes of a body there are more, or it has its length. -/
theorem read_ok {k : Nat} (h : p.state.Reads) (herrno : p.http_errno = none) : (p.read k p.state.done).Ok := by
  refine ⟨herrno, fun hreads hzero => ?_⟩
  have hstate : (p.read k p.state.done).state = p.state.done := if_pos hzero
  rw [hstate] at hreads
  rcases h with h | h <;> simp [h, State.done] at hreads

theorem read_mark {k : Nat} (h : p.state = .chunk_data) (mark : Option Bytes) : MarkOk (p.read k p.state.done) mark := by
  refine .inr ?_
  by_cases hzero : p.content_length - k = 0 <;> simp [Parser.read, State.done, h, hzero]

/-- The data of a chunk in the parser. -/
theorem loop_chunk_data {mark : Option Bytes} {ch : UInt8} {data : Bytes} {k : Nat} (hs : p.state = .chunk_data)
    (herrno : p.http_errno = none) (hk : k = min p.content_length (data.length + 1)) :
    loop strict p mark (ch :: data) =
      loop strict (p.read k .chunk_data_almost_done) (some (mark.getD [] ++ (ch :: data).take k)) (data.drop (k - 1)) := by
  rw [loop, count_reads (.inl hs)]
  simp only [hs, State.over, Bool.false_eq_true, if_false, herrno, Option.isSome_none, ← hk]

/-- A body with a length in the parser. -/
theorem loop_body_identity {mark : Option Bytes} {ch : UInt8} {data : Bytes} {k : Nat} (hs : p.state = .body_identity)
    (herrno : p.http_errno = none) (hk : k = min p.content_length (data.length + 1)) :
    loop strict p mark (ch :: data) =
      if p.content_length - k = 0 then
        (loop strict (p.read k .new_message) none (data.drop (k - 1))).after
          [.body (mark.getD [] ++ (ch :: data).take k), .notice .message_complete]
      else loop strict (p.read k .new_message) (some (mark.getD [] ++ (ch :: data).take k)) (data.drop (k - 1)) := by
  rw [loop, count_reads (.inr hs)]
  simp only [hs, State.over, Bool.false_eq_true, if_false, herrno, Option.isSome_none, ← hk]
  rfl

theorem loop_eof {mark : Option Bytes} {ch : UInt8} {data : Bytes} (hs : p.state = .body_identity_eof)
    (herrno : p.http_errno = none) :
    loop strict p mark (ch :: data) = ⟨p, [.body (mark.getD [] ++ ch :: data)], []⟩ := by
  have hcount : p.count = p := by rw [Parser.count, hs]; rfl
  rw [loop, hcount]
  simp only [hs, State.over, Bool.false_eq_true, if_false, herrno, Option.isSome_none]
  rw [loop]
  rfl

/-- As many bytes as the length and the piece allow, byte by byte. -/
theorem plain_reads (strict : Bool) (ch : UInt8) {data : Bytes} {k : Nat} (hr : p.state.Reads) (h : p.Ok)
    (hk : k = min p.content_length (data.length + 1)) :
    0 < k ∧ plain strict p (ch :: data) =
      (plain strict (p.read k p.state.done) (data.drop (k - 1))).after (((ch :: data).take k).map .data ++
        if p.content_length - k = 0 then p.state.atEnd.map .notice else []) := by
  have hmore : p.content_length ≠ 0 := h.more hr
  have hpos : 0 < k := by omega
  obtain ⟨j, rfl⟩ := Nat.exists_eq_succ_of_ne_zero hpos.ne'
  have hlen : ((ch :: data).take (j + 1)).length = j + 1 := by
    rw [List.length_take, List.length_cons]
    omega
  have hsplit : (ch :: data).take (j + 1) ++ data.drop j = ch :: data := by simp
  have hplain := plain_read strict (data.drop j) hr h.errno (by simp)
    (show ((ch :: data).take (j + 1)).length ≤ p.content_length by rw [hlen]; omega)
  rw [hsplit, hlen] at hplain
  exact ⟨hpos, hplain⟩

theorem loop_plain {mark : Option Bytes} {data : Bytes} (h : p.Ok) (hm : MarkOk p mark) :
    Agrees (loop strict p mark data) mark (plain strict p data) := by
  induction hn : data.length using Nat.strongRecOn generalizing p mark data with
  | _ n ih =>
    cases data with
    | nil =>
      rw [loop, plain]
      exact ⟨rfl, rfl, fun _ => (tokens_mark mark).trans (List.append_nil _).symm⟩
    | cons ch data =>
      have hlt : ∀ k, (data.drop k).length < n := fun k => by
        rw [List.length_drop, ← hn, List.length_cons]
        omega
      have hcontrols : p.state.Controls → Agrees (loop strict p mark (ch :: data)) mark (plain strict p (ch :: data)) := by
        intro hc
        rw [loop_control hc hm, plain_control hc h.errno]
        split
        · rename_i herr
          exact agrees_stop (.inl (Option.isSome_iff_ne_none.mp herr))
        · split
          · rename_i herr
            exact agrees_stop (.inl (Option.isSome_iff_ne_none.mp herr))
          · rename_i herr
            have hq := control_ok (count_state.symm ▸ hc) (Option.not_isSome_iff_eq_none.mp herr)
            refine (ih data.length (by simpa using hlt 0) hq (.inl rfl) rfl).after ?_
            rw [tokens_append, tokens_mark, tokens_notices]
            simp
      cases hs : p.state with
      | header_field_start | new_message =>
        have hover : p.state.over = true := by rw [hs]; rfl
        rw [loop, if_pos hover, plain, if_pos (Or.inl hover)]
        exact agrees_stop (.inr (hm.resolve_right (by simp [hs])))
      | chunk_data =>
        obtain ⟨hpos, hplain⟩ := plain_reads strict ch (.inl hs) h rfl
        have hok := read_ok (k := min p.content_length (data.length + 1)) (.inl hs) h.errno
        rw [hplain, loop_chunk_data hs h.errno rfl]
        rw [hs] at hok ⊢
        refine (ih _ (hlt _) hok (by simpa only [hs] using read_mark hs _) rfl).of_mark ?_
        simp [State.atEnd]
      | body_identity =>
        obtain ⟨hpos, hplain⟩ := plain_reads strict ch (.inr hs) h rfl
        have hok := read_ok (k := min p.content_length (data.length + 1)) (.inr hs) h.errno
        rw [hplain, loop_body_identity hs h.errno rfl]
        rw [hs] at hok ⊢
        split
        · refine (ih _ (hlt _) hok (.inl rfl) rfl).after ?_
          simp [State.atEnd, tokens, Event.tokens]
        · rename_i hleft
          have hstate : (p.read (min p.content_length (data.length + 1)) State.body_identity.done).state = .body_identity :=
            (if_neg hleft).trans hs
          refine (ih _ (hlt _) hok (.inr (by simp [hstate])) rfl).of_mark ?_
          simp
      | body_identity_eof =>
        rw [loop_eof hs h.errno, plain_eof hs h.errno]
        exact ⟨rfl, rfl, fun _ => by simp [tokens, Event.tokens]⟩
      | _ => exact hcontrols (by simp [State.Controls, hs])

/-! One piece after another. -/

@[simp] theorem after_rest (r : Result) (events : List Event) : (r.after events).rest = r.rest := rfl

/-- A byte that is taken leaves a parser that can go on. -/
theorem byte_ok {ch : UInt8} (h : p.Ok) (hover : p.state.over = false) (herrno : (p.byte strict ch).1.http_errno = none) :
    (p.byte strict ch).1.Ok := by
  have hcontrol : p.state.Controls → (p.control strict ch).1.http_errno = none → (p.control strict ch).1.Ok :=
    control_ok
  rw [Parser.byte] at herrno ⊢
  cases hs : p.state with
  | chunk_data =>
    have hok := read_ok (k := 1) (.inl hs) h.errno
    rwa [hs] at hok
  | body_identity =>
    have hok := read_ok (k := 1) (.inr hs) h.errno
    rwa [hs] at hok
  | body_identity_eof => exact h
  | header_field_start | new_message => simp [hs, State.over] at hover
  | _ =>
    rw [hs] at herrno
    exact hcontrol (by simp [State.Controls, hs]) herrno

theorem count_ok (h : p.Ok) (herrno : p.count.http_errno = none) : p.count.Ok := by
  refine ⟨herrno, fun hreads => ?_⟩
  rw [count_state] at hreads
  rw [count_reads hreads]
  exact h.more hreads

theorem plain_stop {data : Bytes} (h : p.state.over ∨ p.http_errno.isSome) : plain strict p data = ⟨p, [], data⟩ := by
  cases data with
  | nil => rfl
  | cons ch data => rw [plain, if_pos h]

/-- What is behind a piece is read from where the piece has led, if that is not the end. -/
theorem plain_append (strict : Bool) (a b : Bytes) (h : p.Ok) :
    plain strict p (a ++ b) = (plain strict (plain strict p a).parser ((plain strict p a).rest ++ b)).after
      (plain strict p a).tokens ∧
      ((plain strict p a).parser.http_errno = none → (plain strict p a).parser.Ok ∧
        ((plain strict p a).parser.state.over = false → (plain strict p a).rest = [])) := by
  induction a generalizing p with
  | nil => exact ⟨rfl, fun _ => ⟨h, fun _ => rfl⟩⟩
  | cons ch a ih =>
    have hstopped : ∀ q : Parser, q.http_errno.isSome →
        (⟨q, [], ch :: (a ++ b)⟩ : Plain) = (plain strict q (ch :: a ++ b)).after [] ∧
          (q.http_errno = none → q.Ok ∧ (q.state.over = false → ch :: a = [])) := by
      intro q hq
      rw [plain_stop (.inr hq)]
      exact ⟨rfl, fun hnone => by simp [hnone] at hq⟩
    rw [List.cons_append, plain, plain]
    split
    · rename_i hstop
      rw [plain_stop hstop]
      refine ⟨rfl, fun _ => ⟨h, fun hover => ?_⟩⟩
      simp [hover, h.errno] at hstop
    · rename_i hgoes
      split
      · rename_i hcount
        exact hstopped p.count hcount
      · rename_i hcount
        simp only
        split
        · rename_i hbyte
          exact hstopped _ hbyte
        · rename_i hbyte
          have hover : p.count.state.over = false := by simpa [h.errno] using hgoes
          have hok := byte_ok (count_ok h (Option.not_isSome_iff_eq_none.mp hcount)) hover
            (Option.not_isSome_iff_eq_none.mp hbyte)
          obtain ⟨happend, hrest⟩ := ih hok
          refine ⟨?_, hrest⟩
          rw [happend, Plain.after_after]
          rfl

end

/-- A body that comes in pieces, until it is over or an error ends it; `rest` is what no call has used. -/
def feed (strict : Bool) (p : Parser) : List Bytes → Result
  | [] => ⟨p, [], []⟩
  | piece :: pieces =>
    let r := execute strict p piece
    if r.parser.http_errno.isSome ∨ r.parser.state.over then { r with rest := r.rest ++ pieces.flatten }
    else (feed strict r.parser pieces).after r.events

section
variable {strict : Bool} {p : Parser}

theorem execute_plain (strict : Bool) {data : Bytes} (h : p.Ok) (hne : data ≠ []) :
    Agrees (execute strict p data) none (plain strict p data) := by
  cases data with
  | nil => exact absurd rfl hne
  | cons ch data =>
    rw [execute, h.errno]
    exact loop_plain h (.inl rfl)

theorem feed_agrees (strict : Bool) {pieces : List Bytes} (h : p.Ok) (hne : ∀ piece ∈ pieces, piece ≠ []) :
    Agrees (feed strict p pieces) none (plain strict p pieces.flatten) := by
  induction pieces generalizing p with
  | nil => exact ⟨rfl, rfl, fun _ => rfl⟩
  | cons piece pieces ih =>
    obtain ⟨happend, hon⟩ := plain_append strict piece pieces.flatten h
    obtain ⟨hparser, hrest, hsaid⟩ := execute_plain strict h (hne _ List.mem_cons_self)
    rw [List.flatten_cons, happend, feed]
    simp only [hparser, hrest]
    split
    · rename_i hstop
      rw [plain_stop hstop.symm]
      refine ⟨rfl, rfl, fun herrno => ?_⟩
      rw [hsaid herrno]
      exact (List.append_nil _).symm
    · rename_i hgoes
      simp only [not_or, Bool.not_eq_true, Option.isSome_eq_false_iff, Option.isNone_iff_eq_none] at hgoes
      obtain ⟨hok, hused⟩ := hon hgoes.1
      have hpieces := ih hok fun piece hmem => hne piece (List.mem_cons_of_mem _ hmem)
      rw [hused hgoes.2, List.nil_append]
      refine hpieces.after ?_
      rw [hsaid hgoes.1]
      simp

/-- However a body is cut into pieces, they leave the parser where one call with all of it does, with the
    same bytes unused, and unless there is an error the same data and notices have been called back. -/
theorem feed_execute (strict : Bool) {pieces : List Bytes} (h : p.Ok) (hne : ∀ piece ∈ pieces, piece ≠ []) (hsome : pieces ≠ []) :
    (feed strict p pieces).parser = (execute strict p pieces.flatten).parser ∧
      (feed strict p pieces).rest = (execute strict p pieces.flatten).rest ∧
      ((feed strict p pieces).parser.http_errno = none →
        tokens (feed strict p pieces).events = tokens (execute strict p pieces.flatten).events) := by
  have hflat : pieces.flatten ≠ [] := by
    obtain ⟨piece, rest, rfl⟩ := List.exists_cons_of_ne_nil hsome
    intro hnil
    exact hne piece List.mem_cons_self (List.append_eq_nil_iff.mp hnil).1
  have hfeed := feed_agrees strict h hne
  have hwhole := execute_plain strict h hflat
  refine ⟨hfeed.parser.trans hwhole.parser.symm, hfeed.rest.trans hwhole.rest.symm, fun herrno => ?_⟩
  rw [hfeed.parser] at herrno
  rw [hfeed.said herrno, hwhole.said herrno]

/-- A body of two bytes that comes in two pieces, with more behind it. -/
theorem feed_execute_identity : let p : Parser := { state := .body_identity, content_length := 2 }
    (feed true p [[111], [107, 71]]).parser = (execute true p [111, 107, 71]).parser ∧
      (feed true p [[111], [107, 71]]).rest = (execute true p [111, 107, 71]).rest ∧
      ((feed true p [[111], [107, 71]]).parser.http_errno = none →
        tokens (feed true p [[111], [107, 71]]).events = tokens (execute true p [111, 107, 71]).events) :=
  feed_execute true ⟨rfl, fun _ => by decide⟩ (by decide) (by decide)

end

end RubbishStore.Socket.HttpBody
