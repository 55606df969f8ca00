import RubbishStore.Lib.Labelled
import RubbishStore.Socket.StrEcho

/- `tcpclient` and the child of `tcpserver` that it talks to: `str_cli` of `strcli.c` at
   one end of a connection and `str_echo` of `strecho.c` at the other. Bytes that are
   written are on their way until they are read; a `write` takes and a `read` brings any
   number of them, and the end of file comes behind the last byte of a process that has
   ended. Either process may die at any time. What the client shows is always the
   beginning of what the texts it sends are to be answered with (`shown_begins`). While
   nobody dies the session ends, with everything shown or with both processes waiting
   for each other, since a text without a newline at its end is never answered
   (`session_ends`). -/
namespace RubbishStore.Socket.AddSession
open RubbishStore.Lib RubbishStore.Lib.Labelled

/-- The client: in `str_cli`, or ended. -/
inductive Client where
  /-- before `Fgets` -/
  | prompting
  /-- in `Writen`, with what is left to write -/
  | sending (unsent : Bytes)
  /-- in `Readline`, with what is stored of the line -/
  | reading (line : Bytes)
  /-- `exit(0)` -/
  | exited
  /-- `err_quit("str_cli: server terminated prematurely")` -/
  | quit
  /-- a call has failed, or a signal has come -/
  | died
  deriving DecidableEq, Repr

/-- The server's child: in `str_echo`, or ended. -/
inductive Server where
  | reading (line : Bytes)
  | sending (unsent : Bytes)
  /-- connection closed by other end -/
  | exited
  | died
  /-- no number of the line or no sum of two fits a `long` -/
  | undefined
  deriving DecidableEq, Repr

def Client.ended : Client → Bool
  | exited => true
  | quit => true
  | died => true
  | _ => false

def Server.ended : Server → Bool
  | exited => true
  | died => true
  | undefined => true
  | _ => false

/-- Both processes and the bytes on their way to the server and to the client. -/
structure Session where
  stdin : Bytes
  client : Client := .prompting
  clientBuf : ReadBuf := {}
  up : Bytes := []
  server : Server := .reading []
  serverBuf : ReadBuf := {}
  down : Bytes := []
  stdout : Bytes := []
  deriving DecidableEq, Repr

inductive Event where
  /-- `Fgets` -/
  | typed
  /-- a `write` takes at most so many bytes, a `read` brings at most so many -/
  | clientWrites (n : Nat)
  | clientReads (n : Nat)
  | serverWrites (n : Nat)
  | serverReads (n : Nat)
  | clientDies
  | serverDies
  deriving DecidableEq, Repr

/-- `fgets(s, n, stream)` stores up to `n - 1` bytes, up to a newline: the line and what is behind it. -/
def fgets (n : Nat) (stream : Bytes) : Option (Bytes × Bytes) :=
  if stream = [] then none else some (Framing.collect (lineEnds n) [] stream)

/-- What a `read` brings of the bytes on their way, and what is left of them: nothing yet while
    there are none, but the end of file if the other process has ended. -/
def delivered (sent : Bytes) (ended : Bool) (n : Nat) : Option (Bytes × Bytes) :=
  if sent = [] then if ended then some ([], []) else none
  else if n = 0 then none else some (sent.take (min n MAXLINE), sent.drop (min n MAXLINE))

namespace Session
variable (s : Session)

/-! The client. -/

/-- `Readline`, and `Fputs` when it has returned. -/
def clientTook (r : Reading) : Session :=
  match r.returned with
  | none => { s with client := .reading r.line, clientBuf := r.buf }
  | some n =>
    if n < 0 then { s with client := .died, clientBuf := r.buf }
    else if n = 0 then { s with client := .quit, clientBuf := r.buf }
    else { s with client := .prompting, clientBuf := r.buf, stdout := s.stdout ++ cstring r.line }

/-- `Writen`, which makes no call when nothing is left, and then `Readline`. -/
def clientWriten (unsent : Bytes) : Session :=
  if unsent = [] then s.clientTook (readline MAXLINE s.clientBuf []) else { s with client := .sending unsent }

/-! The server. -/

/-- `Readline`, and the answer when it has returned. -/
def serverTook (r : Reading) : Session :=
  match r.returned with
  | none => { s with server := .reading r.line, serverBuf := r.buf }
  | some n =>
    if n < 0 then { s with server := .died, serverBuf := r.buf }
    else if n = 0 then { s with server := .exited, serverBuf := r.buf }
    else
      match answer r.line with
      | some reply => { s with server := .sending reply, serverBuf := r.buf }
      | none => { s with server := .undefined, serverBuf := r.buf }

def serverWriten (unsent : Bytes) : Session :=
  if unsent = [] then s.serverTook (readline MAXLINE s.serverBuf []) else { s with server := .sending unsent }

/-! What may happen. -/

def step : Event → Option Session
  | .typed =>
    match s.client with
    | .prompting =>
      match fgets MAXLINE s.stdin with
      | none => some { s with client := .exited }
      | some (line, rest) => some (({ s with stdin := rest } : Session).clientWriten (cstring line))
    | _ => none
  | .clientWrites n =>
    match s.client with
    | .sending unsent =>
      if n = 0 then none
      else some (({ s with up := s.up ++ unsent.take n } : Session).clientWriten (unsent.drop n))
    | _ => none
  | .clientReads n =>
    match s.client with
    | .reading line =>
      (delivered s.down s.server.ended n).map fun (bytes, rest) =>
        ({ s with down := rest } : Session).clientTook
          (readlineLoop (MAXLINE - 1 - line.length) line s.clientBuf [.arrived bytes])
    | _ => none
  | .serverWrites n =>
    match s.server with
    | .sending unsent =>
      if n = 0 then none
      else some (({ s with down := s.down ++ unsent.take n } : Session).serverWriten (unsent.drop n))
    | _ => none
  | .serverReads n =>
    match s.server with
    | .reading line =>
      (delivered s.up s.client.ended n).map fun (bytes, rest) =>
        ({ s with up := rest } : Session).serverTook
          (readlineLoop (MAXLINE - 1 - line.length) line s.serverBuf [.arrived bytes])
    | _ => none
  | .clientDies => if s.client.ended then none else some { s with client := .died }
  | .serverDies => if s.server.ended then none else some { s with server := .died }

end Session

/-! What a session is to show. -/

/-- The lines that `Fgets` gives, as they are sent: up to a NUL. -/
def requests (stdin : Bytes) : List Bytes :=
  let pieces := Framing.cut (lineEnds MAXLINE) [] stdin
  (pieces.1 ++ if pieces.2 = [] then [] else [pieces.2]).map cstring

/-- The answers, up to the first text that is no whole line, and that text. -/
structure Converse where
  shown : Bytes
  unanswered : Option Bytes
  deriving DecidableEq, Repr

def converse : List Bytes → Converse
  | [] => ⟨[], none⟩
  | text :: texts =>
    if lineEnds MAXLINE text then ⟨(answer text).getD [] ++ (converse texts).shown, (converse texts).unanswered⟩
    else ⟨[], some text⟩

/-- Every text has an answer that C defines. -/
def Defined (texts : List Bytes) : Prop := ∀ text ∈ texts, (answer text).isSome

instance (texts : List Bytes) : Decidable (Defined texts) :=
  inferInstanceAs (Decidable (∀ text ∈ texts, (answer text).isSome = true))

section
variable {maxlen : Nat} {line bytes : Bytes} {b : ReadBuf}
open Framing

theorem length_of_open (hmaxlen : 2 ≤ maxlen) (h : Open (lineEnds maxlen) line) : line.length + 2 ≤ maxlen := by
  by_contra hlt
  have hlength : (line.take (maxlen - 1)).length = maxlen - 1 := List.length_take_of_le (by omega)
  have hne : line.take (maxlen - 1) ≠ [] := List.ne_nil_of_length_pos (by omega)
  have hends := h _ (List.take_prefix _ _) hne
  rw [lineEnds, Bool.or_eq_false_iff, decide_eq_false_iff_not, decide_eq_false_iff_not, hlength] at hends
  omega

/-- No byte waits in the buffer. -/
def Drained (b : ReadBuf) : Prop := b.Sound ∧ b.unread = []

theorem drained_start : Drained {} := ⟨ReadBuf.sound_start, ReadBuf.unread_start⟩

/-- `Readline` waits for the first byte. -/
theorem readline_waits (hb : Drained b) :
    (readline MAXLINE b []).returned = none ∧ (readline MAXLINE b []).line = [] ∧ Drained (readline MAXLINE b []).buf := by
  have hmaxlen : 2 ≤ MAXLINE := by decide
  obtain ⟨hsound, ⟨hpiece, hs, -, -⟩ | ⟨-, hs, hunread, hreturned⟩⟩ := readline_collects hmaxlen hb.1 []
  · rw [hb.2] at hs
    exact absurd (List.append_eq_nil_iff.mp hs.symm).1 hpiece.ne_nil
  · rw [hb.2] at hs
    exact ⟨hreturned, hs.symm, hsound, hunread⟩

/-- The bytes of one `read` are taken, in a line that is not whole without them. -/
theorem readlineLoop_arrived (hb : Drained b) (hopen : Open (lineEnds MAXLINE) line) (bytes : Bytes) :
    Collects MAXLINE (line ++ arriving [.arrived bytes]) [.arrived bytes]
      (readlineLoop (MAXLINE - 1 - line.length) line b [.arrived bytes]) := by
  have hmaxlen : 2 ≤ MAXLINE := by decide
  have hlength := length_of_open hmaxlen hopen
  have hcollects := readlineLoop_collects hb.1 (.inl ⟨show 0 < MAXLINE - 1 - line.length by omega, hopen⟩)
    (by omega) [.arrived bytes]
  rw [hb.2] at hcollects
  exact hcollects

theorem arriving_chunk (hne : bytes ≠ []) (hlength : bytes.length ≤ MAXLINE) :
    arriving [.arrived bytes] = bytes ∧ stopping [.arrived bytes] = .waiting := by
  rw [arriving, stopping, if_neg hne, if_neg hne, List.take_of_length_le hlength]
  exact ⟨List.append_nil bytes, rfl⟩

theorem readlineLoop_open (hb : Drained b) (hopen : Open (lineEnds MAXLINE) line) (hne : bytes ≠ [])
    (hlength : bytes.length ≤ MAXLINE) (hmore : Open (lineEnds MAXLINE) (line ++ bytes)) :
    let r := readlineLoop (MAXLINE - 1 - line.length) line b [.arrived bytes]
    r.returned = none ∧ r.line = line ++ bytes ∧ Drained r.buf := by
  intro r
  obtain ⟨hsound, hcases⟩ : Collects MAXLINE _ _ r := readlineLoop_arrived hb hopen bytes
  obtain ⟨harriving, hstopping⟩ := arriving_chunk hne hlength
  rw [harriving, hstopping] at hcases
  rcases hcases with ⟨hpiece, hs, -, -⟩ | ⟨-, hs, hunread, hreturned⟩
  · have hprefix : r.line <+: line ++ bytes := hs ▸ List.prefix_append _ _
    exact absurd hpiece (hmore.of_prefix hprefix).not_isPiece
  · exact ⟨hreturned, hs.symm, hsound, hunread⟩

theorem readlineLoop_piece (hb : Drained b) (hopen : Open (lineEnds MAXLINE) line) (hne : bytes ≠ [])
    (hlength : bytes.length ≤ MAXLINE) (hpiece : IsPiece (lineEnds MAXLINE) (line ++ bytes)) :
    let r := readlineLoop (MAXLINE - 1 - line.length) line b [.arrived bytes]
    r.returned = some (counted (line ++ bytes)) ∧ r.line = line ++ bytes ∧ Drained r.buf := by
  intro r
  obtain ⟨hsound, hcases⟩ : Collects MAXLINE _ _ r := readlineLoop_arrived hb hopen bytes
  obtain ⟨harriving, hstopping⟩ := arriving_chunk hne hlength
  rw [harriving, hstopping] at hcases
  rcases hcases with ⟨hpiece', hs, -, hreturned⟩ | ⟨hmore, hs, -, -⟩
  · -- a piece within a piece is all of it
    have hline : r.line = line ++ bytes := by
      by_contra hshort
      have hprefix : r.line <+: line ++ bytes := hs ▸ List.prefix_append _ _
      exact (hpiece.open_of_prefix hprefix hshort).not_isPiece hpiece'
    rw [hline] at hs hreturned
    exact ⟨hreturned, hline, hsound, (List.append_eq_nil_iff.mp (List.append_right_eq_self.mp hs.symm)).1⟩
  · exact absurd (hs ▸ hpiece) hmore.not_isPiece

theorem readlineLoop_eof (hb : Drained b) (hopen : Open (lineEnds MAXLINE) line) :
    let r := readlineLoop (MAXLINE - 1 - line.length) line b [.arrived []]
    r.returned = some (line.length : Int) ∧ r.line = line ∧ Drained r.buf := by
  intro r
  obtain ⟨hsound, hcases⟩ : Collects MAXLINE _ _ r := readlineLoop_arrived hb hopen []
  rw [show arriving [.arrived []] = [] from rfl, List.append_nil] at hcases
  rcases hcases with ⟨hpiece, hs, -, -⟩ | ⟨-, hs, hunread, hreturned⟩
  · have hprefix : r.line <+: line := hs ▸ List.prefix_append _ _
    exact absurd hpiece (hopen.of_prefix hprefix).not_isPiece
  · rw [← hs] at hreturned
    exact ⟨hreturned, hs.symm, hsound, hunread⟩

theorem cstring_of_zero_not_mem (hzero : 0 ∉ line) : cstring line = line := by
  rw [← List.append_nil line, cstring_append hzero]
  rfl

theorem counted_pos (hpiece : IsPiece (lineEnds MAXLINE) line) : 0 < counted line := by
  have hpos := List.length_pos_of_ne_nil hpiece.ne_nil
  rw [counted]
  split
  · omega
  · omega

end

/-! What each of the two does with the bytes of a `read`. -/

/-- In `Readline` when there is nothing left to write, in `Writen` otherwise. -/
def clientAt (unsent : Bytes) : Client := if unsent = [] then .reading [] else .sending unsent

def serverAt (unsent : Bytes) : Server := if unsent = [] then .reading [] else .sending unsent

namespace Session
open Framing
variable {s : Session} {line bytes : Bytes}

theorem clientWriten_eq (hb : Drained s.clientBuf) (unsent : Bytes) :
    ∃ b, Drained b ∧ s.clientWriten unsent = { s with client := clientAt unsent, clientBuf := b } := by
  rw [clientWriten, clientAt]
  by_cases hnil : unsent = []
  · obtain ⟨hreturned, hline, hdrained⟩ := readline_waits hb
    refine ⟨_, hdrained, ?_⟩
    rw [if_pos hnil, if_pos hnil, clientTook, hreturned, hline]
  · refine ⟨s.clientBuf, hb, ?_⟩
    rw [if_neg hnil, if_neg hnil]

theorem clientTook_open (hb : Drained s.clientBuf) (hopen : Open (lineEnds MAXLINE) line) (hne : bytes ≠ [])
    (hlength : bytes.length ≤ MAXLINE) (hmore : Open (lineEnds MAXLINE) (line ++ bytes)) :
    ∃ b, Drained b ∧ s.clientTook (readlineLoop (MAXLINE - 1 - line.length) line s.clientBuf [.arrived bytes]) =
      { s with client := .reading (line ++ bytes), clientBuf := b } := by
  obtain ⟨hreturned, hline, hdrained⟩ := readlineLoop_open hb hopen hne hlength hmore
  refine ⟨_, hdrained, ?_⟩
  rw [clientTook, hreturned, hline]

theorem clientTook_piece (hb : Drained s.clientBuf) (hopen : Open (lineEnds MAXLINE) line) (hne : bytes ≠ [])
    (hlength : bytes.length ≤ MAXLINE) (hpiece : IsPiece (lineEnds MAXLINE) (line ++ bytes)) (hzero : 0 ∉ line ++ bytes) :
    ∃ b, Drained b ∧ s.clientTook (readlineLoop (MAXLINE - 1 - line.length) line s.clientBuf [.arrived bytes]) =
      { s with client := .prompting, clientBuf := b, stdout := s.stdout ++ (line ++ bytes) } := by
  obtain ⟨hreturned, hline, hdrained⟩ := readlineLoop_piece hb hopen hne hlength hpiece
  have hpos := counted_pos hpiece
  refine ⟨_, hdrained, ?_⟩
  rw [clientTook, hreturned, hline, cstring_of_zero_not_mem hzero]
  simp only [if_neg (Int.not_lt.mpr hpos.le), if_neg hpos.ne']

/-- At the end of file the client ends, or shows what it has of a line. -/
theorem clientTook_eof (hb : Drained s.clientBuf) (hopen : Open (lineEnds MAXLINE) line) (hzero : 0 ∉ line) :
    ∃ b, Drained b ∧ s.clientTook (readlineLoop (MAXLINE - 1 - line.length) line s.clientBuf [.arrived []]) =
      if line = [] then { s with client := .quit, clientBuf := b }
      else { s with client := .prompting, clientBuf := b, stdout := s.stdout ++ line } := by
  obtain ⟨hreturned, hline, hdrained⟩ := readlineLoop_eof hb hopen
  refine ⟨_, hdrained, ?_⟩
  rw [clientTook, hreturned, hline, cstring_of_zero_not_mem hzero]
  simp only [if_neg (Int.not_lt.mpr (Int.natCast_nonneg line.length)), Int.natCast_eq_zero, List.length_eq_zero_iff]

theorem serverWriten_eq (hb : Drained s.serverBuf) (unsent : Bytes) :
    ∃ b, Drained b ∧ s.serverWriten unsent = { s with server := serverAt unsent, serverBuf := b } := by
  rw [serverWriten, serverAt]
  by_cases hnil : unsent = []
  · obtain ⟨hreturned, hline, hdrained⟩ := readline_waits hb
    refine ⟨_, hdrained, ?_⟩
    rw [if_pos hnil, if_pos hnil, serverTook, hreturned, hline]
  · refine ⟨s.serverBuf, hb, ?_⟩
    rw [if_neg hnil, if_neg hnil]

theorem serverTook_open (hb : Drained s.serverBuf) (hopen : Open (lineEnds MAXLINE) line) (hne : bytes ≠ [])
    (hlength : bytes.length ≤ MAXLINE) (hmore : Open (lineEnds MAXLINE) (line ++ bytes)) :
    ∃ b, Drained b ∧ s.serverTook (readlineLoop (MAXLINE - 1 - line.length) line s.serverBuf [.arrived bytes]) =
      { s with server := .reading (line ++ bytes), serverBuf := b } := by
  obtain ⟨hreturned, hline, hdrained⟩ := readlineLoop_open hb hopen hne hlength hmore
  refine ⟨_, hdrained, ?_⟩
  rw [serverTook, hreturned, hline]

theorem serverTook_piece (hb : Drained s.serverBuf) (hopen : Open (lineEnds MAXLINE) line) (hne : bytes ≠ [])
    (hlength : bytes.length ≤ MAXLINE) (hpiece : IsPiece (lineEnds MAXLINE) (line ++ bytes)) {reply : Bytes}
    (hreply : answer (line ++ bytes) = some reply) :
    ∃ b, Drained b ∧ s.serverTook (readlineLoop (MAXLINE - 1 - line.length) line s.serverBuf [.arrived bytes]) =
      { s with server := .sending reply, serverBuf := b } := by
  obtain ⟨hreturned, hline, hdrained⟩ := readlineLoop_piece hb hopen hne hlength hpiece
  have hpos := counted_pos hpiece
  refine ⟨_, hdrained, ?_⟩
  rw [serverTook, hreturned, hline]
  simp only [if_neg (Int.not_lt.mpr hpos.le), if_neg hpos.ne', hreply]

theorem serverTook_eof (hb : Drained s.serverBuf) :
    ∃ b, Drained b ∧ s.serverTook (readlineLoop (MAXLINE - 1 - ([] : Bytes).length) [] s.serverBuf [.arrived []]) =
      { s with server := .exited, serverBuf := b } := by
  obtain ⟨hreturned, -, hdrained⟩ := readlineLoop_eof hb open_nil
  refine ⟨_, hdrained, ?_⟩
  rw [serverTook, hreturned]
  rfl

end Session

/-! A session without deaths. -/

section
open Framing

theorem fgets_nil : fgets MAXLINE [] = none ∧ requests [] = [] := ⟨rfl, rfl⟩

theorem fgets_cons {stdin : Bytes} (hne : stdin ≠ []) :
    ∃ line rest, fgets MAXLINE stdin = some (line, rest) ∧ requests stdin = cstring line :: requests rest ∧
      (IsPiece (lineEnds MAXLINE) (cstring line) ∨ Open (lineEnds MAXLINE) (cstring line)) := by
  have hstart : ∀ line, cstring line <+: line := fun line => List.takeWhile_prefix _
  refine ⟨_, _, if_neg hne, ?_⟩
  rcases collect_cases (open_nil : Open (lineEnds MAXLINE) []) stdin with ⟨hpiece, hcut⟩ | ⟨hopen, heq⟩
  · constructor
    · simp only [requests, hcut, List.cons_append, List.map_cons]
    · by_cases hall : cstring (collect (lineEnds MAXLINE) [] stdin).1 = (collect (lineEnds MAXLINE) [] stdin).1
      · rw [hall]
        exact .inl hpiece
      · exact .inr (hpiece.open_of_prefix (hstart _) hall)
  · have hcut : cut (lineEnds MAXLINE) [] stdin = ([], stdin) := cut_open hopen
    rw [heq]
    constructor
    · simp only [requests, hcut, if_neg hne]
      rfl
    · exact .inr (hopen.of_prefix (hstart _))

/-- What the client has shown, and then what is still to come. -/
def Converse.behind (out : Bytes) (c : Converse) : Converse := { c with shown := out ++ c.shown }

/-- Where a session stands while both are at work: what is shown and still to be shown makes `c`. -/
inductive Phase (c : Converse) : Session → Prop where
  /-- the next line is to be typed -/
  | idle {stdin : Bytes} {cb sb : ReadBuf} {stdout : Bytes} (hcb : Drained cb) (hsb : Drained sb)
      (hdef : Defined (requests stdin)) (hc : (converse (requests stdin)).behind stdout = c) :
      Phase c ⟨stdin, .prompting, cb, [], .reading [], sb, [], stdout⟩
  /-- a text is on its way to the server -/
  | asking {stdin unsent : Bytes} {cb : ReadBuf} {up line : Bytes} {sb : ReadBuf} {stdout : Bytes} (hcb : Drained cb)
      (hsb : Drained sb) (hopen : Open (lineEnds MAXLINE) line)
      (htext : IsPiece (lineEnds MAXLINE) (line ++ (up ++ unsent)) ∨ Open (lineEnds MAXLINE) (line ++ (up ++ unsent)))
      (hdef : Defined ((line ++ (up ++ unsent)) :: requests stdin))
      (hc : (converse ((line ++ (up ++ unsent)) :: requests stdin)).behind stdout = c) :
      Phase c ⟨stdin, clientAt unsent, cb, up, .reading line, sb, [], stdout⟩
  /-- its answer is on its way to the client -/
  | answering {stdin line : Bytes} {cb : ReadBuf} {unsent : Bytes} {sb : ReadBuf} {down stdout : Bytes}
      (hcb : Drained cb) (hsb : Drained sb) (hopen : Open (lineEnds MAXLINE) line)
      (hreply : IsPiece (lineEnds MAXLINE) (line ++ (down ++ unsent))) (hzero : 0 ∉ line ++ (down ++ unsent))
      (hdef : Defined (requests stdin))
      (hc : ((converse (requests stdin)).behind (line ++ (down ++ unsent))).behind stdout = c) :
      Phase c ⟨stdin, .reading line, cb, [], serverAt unsent, sb, down, stdout⟩
  /-- the input has ended -/
  | ended {cb sb : ReadBuf} {server : Server} {stdout : Bytes} (hsb : Drained sb)
      (hserver : server = .reading [] ∨ server = .exited) (hc : (converse []).behind stdout = c) :
      Phase c ⟨[], .exited, cb, [], server, sb, [], stdout⟩

/-! Every step brings the session on. -/

def replyLength (text : Bytes) : Nat := ((answer text).getD []).length

/-- The most that a text and its answer take. -/
def cost (texts : List Bytes) : Nat := (texts.map fun text => 2 * text.length + 2 * replyLength text + 2).sum

def Client.rank : Client → Nat
  | prompting => 1
  | sending unsent => 2 * unsent.length + 1
  | reading _ => 1
  | _ => 0

def Client.unsent : Client → Bytes
  | sending unsent => unsent
  | _ => []

/-- Of a text that is still to be answered, the answer is to come. -/
def Session.serverRank (s : Session) : Nat :=
  match s.server with
  | .reading line =>
    let text := line ++ (s.up ++ s.client.unsent)
    if text = [] then 1 else 2 * replyLength text + 1
  | .sending unsent => 2 * unsent.length + 1
  | _ => 0

def Session.rank (s : Session) : Nat :=
  cost (requests s.stdin) + s.client.rank + s.up.length + s.serverRank + s.down.length

/-- An event in which nobody dies. -/
def Event.Peaceful : Event → Prop
  | clientDies => False
  | serverDies => False
  | _ => True

theorem rank_clientAt (unsent : Bytes) :
    (clientAt unsent).rank = 2 * unsent.length + 1 ∧ (clientAt unsent).unsent = unsent := by
  rw [clientAt]
  by_cases hnil : unsent = []
  · rw [if_pos hnil, hnil]
    exact ⟨rfl, rfl⟩
  · rw [if_neg hnil]
    exact ⟨rfl, rfl⟩

/-- What a `read` brings is some of what is on its way, or there is nothing and the other process has ended. -/
theorem delivered_cases {sent bytes rest : Bytes} {ended : Bool} {n : Nat} (h : delivered sent ended n = some (bytes, rest)) :
    sent = [] ∧ ended = true ∧ bytes = [] ∧ rest = [] ∨
      sent = bytes ++ rest ∧ bytes ≠ [] ∧ bytes.length ≤ MAXLINE := by
  rw [delivered] at h
  by_cases hnil : sent = []
  · rw [if_pos hnil] at h
    cases ended with
    | false => cases h
    | true =>
      obtain ⟨rfl, rfl⟩ := Prod.mk.inj (Option.some.inj h)
      exact .inl ⟨hnil, rfl, rfl, rfl⟩
  · by_cases hn : n = 0
    · rw [if_neg hnil, if_pos hn] at h
      cases h
    · rw [if_neg hnil, if_neg hn] at h
      obtain ⟨rfl, rfl⟩ := Prod.mk.inj (Option.some.inj h)
      refine .inr ⟨(List.take_append_drop _ _).symm, ?_, ?_⟩
      · rw [Ne, List.take_eq_nil_iff, not_or]
        exact ⟨by rw [MAXLINE]; omega, hnil⟩
      · exact (List.length_take_le _ _).trans (Nat.min_le_right _ _)

theorem delivered_some {sent bytes rest : Bytes} {n : Nat} (h : delivered sent false n = some (bytes, rest)) :
    sent = bytes ++ rest ∧ bytes ≠ [] ∧ bytes.length ≤ MAXLINE :=
  (delivered_cases h).resolve_left fun hend => Bool.false_ne_true hend.2.1

theorem Converse.behind_behind (out out' : Bytes) (c : Converse) :
    (c.behind out').behind out = c.behind (out ++ out') := by
  rw [behind, behind, behind, List.append_assoc]

theorem defined_cons {text : Bytes} {texts : List Bytes} (h : Defined (text :: texts)) :
    (∃ reply, answer text = some reply) ∧ Defined texts := by
  obtain ⟨htext, htexts⟩ := List.forall_mem_cons.mp h
  exact ⟨Option.isSome_iff_exists.mp htext, htexts⟩

variable {c : Converse} {e : Event} {s' : Session} {stdin unsent line up down stdout : Bytes} {cb sb : ReadBuf}

theorem clientAt_cases (unsent : Bytes) :
    clientAt unsent = .reading [] ∧ unsent = [] ∨ clientAt unsent = .sending unsent ∧ unsent ≠ [] := by
  by_cases hnil : unsent = []
  · exact .inl ⟨if_pos hnil, hnil⟩
  · exact .inr ⟨if_neg hnil, hnil⟩

theorem serverAt_cases (unsent : Bytes) :
    serverAt unsent = .reading [] ∧ unsent = [] ∨ serverAt unsent = .sending unsent ∧ unsent ≠ [] := by
  by_cases hnil : unsent = []
  · exact .inl ⟨if_pos hnil, hnil⟩
  · exact .inr ⟨if_neg hnil, hnil⟩

theorem ended_clientAt (unsent : Bytes) : (clientAt unsent).ended = false := by
  rw [clientAt]
  split
  · rfl
  · rfl

theorem ended_serverAt (unsent : Bytes) : (serverAt unsent).ended = false := by
  rw [serverAt]
  split
  · rfl
  · rfl

/-- Some of the bytes are taken. -/
theorem length_moved {s : Bytes} {n : Nat} (hne : s ≠ []) (hn : n ≠ 0) :
    (s.take n).length + 2 * (s.drop n).length < 2 * s.length := by
  have hpos := List.length_pos_of_ne_nil hne
  rw [List.length_take, List.length_drop]
  omega

/-! The rank in each phase. -/

theorem rank_idle : Session.rank ⟨stdin, .prompting, cb, [], .reading [], sb, [], stdout⟩ = cost (requests stdin) + 2 := rfl

theorem rank_asking : Session.rank ⟨stdin, clientAt unsent, cb, up, .reading line, sb, [], stdout⟩ =
    cost (requests stdin) + (2 * unsent.length + 1) + up.length +
      (if line ++ (up ++ unsent) = [] then 1 else 2 * replyLength (line ++ (up ++ unsent)) + 1) := by
  simp only [Session.rank, Session.serverRank, rank_clientAt, List.length_nil, Nat.add_zero]

theorem rank_answering : Session.rank ⟨stdin, .reading line, cb, [], serverAt unsent, sb, down, stdout⟩ =
    cost (requests stdin) + 1 + (2 * unsent.length + 1) + down.length := by
  by_cases hnil : unsent = []
  · subst hnil
    rfl
  · rw [serverAt, if_neg hnil]
    rfl

theorem rank_over (server : Server) : Session.rank ⟨[], .exited, cb, [], server, sb, [], stdout⟩ =
    Session.serverRank ⟨[], .exited, cb, [], server, sb, [], stdout⟩ := by
  simp only [Session.rank, fgets_nil, Client.rank, List.length_nil, Nat.add_zero, cost, List.map_nil, List.sum_nil,
    Nat.zero_add]

theorem cost_cons (text : Bytes) (texts : List Bytes) :
    cost (text :: texts) = 2 * text.length + 2 * replyLength text + 2 + cost texts := by
  rw [cost, List.map_cons, List.sum_cons]
  rfl

theorem idle_step (he : e.Peaceful) (hcb : Drained cb) (hsb : Drained sb) (hdef : Defined (requests stdin))
    (hc : (converse (requests stdin)).behind stdout = c)
    (h : Session.step ⟨stdin, .prompting, cb, [], .reading [], sb, [], stdout⟩ e = some s') :
    Phase c s' ∧ s'.rank < Session.rank ⟨stdin, .prompting, cb, [], .reading [], sb, [], stdout⟩ := by
  cases e with
  | typed =>
    by_cases hnil : stdin = []
    · subst hnil
      obtain rfl := Option.some.inj h
      refine ⟨.ended hsb (.inl rfl) hc, ?_⟩
      rw [rank_idle, rank_over]
      exact Nat.lt_add_left _ Nat.one_lt_two
    · obtain ⟨text, rest, hfgets, hrequests, htext⟩ := fgets_cons hnil
      obtain ⟨b, hb, hwriten⟩ := Session.clientWriten_eq (s := ⟨rest, .prompting, cb, [], .reading [], sb, [], stdout⟩)
        hcb (cstring text)
      simp only [Session.step, hfgets, hwriten] at h
      obtain rfl := Option.some.inj h
      rw [rank_idle, rank_asking, hrequests, cost_cons]
      rw [hrequests] at hdef hc
      refine ⟨.asking hb hsb open_nil htext hdef hc, ?_⟩
      rw [List.nil_append, List.nil_append, List.length_nil]
      split
      · omega
      · omega
  | clientWrites n => cases h
  | clientReads n => cases h
  | serverWrites n => cases h
  | serverReads n => cases h
  | clientDies => exact he.elim
  | serverDies => exact he.elim

theorem asking_step (he : e.Peaceful) (hcb : Drained cb) (hsb : Drained sb) (hopen : Open (lineEnds MAXLINE) line)
    (htext : IsPiece (lineEnds MAXLINE) (line ++ (up ++ unsent)) ∨ Open (lineEnds MAXLINE) (line ++ (up ++ unsent)))
    (hdef : Defined ((line ++ (up ++ unsent)) :: requests stdin))
    (hc : (converse ((line ++ (up ++ unsent)) :: requests stdin)).behind stdout = c)
    (h : Session.step ⟨stdin, clientAt unsent, cb, up, .reading line, sb, [], stdout⟩ e = some s') :
    Phase c s' ∧ s'.rank < Session.rank ⟨stdin, clientAt unsent, cb, up, .reading line, sb, [], stdout⟩ := by
  rcases e with _ | n | n | n | n | _ | _
  case typed =>
    rcases clientAt_cases unsent with ⟨hclient, -⟩ | ⟨hclient, -⟩
    · rw [hclient] at h
      cases h
    · rw [hclient] at h
      cases h
  case clientWrites =>
    rcases clientAt_cases unsent with ⟨hclient, -⟩ | ⟨hclient, hne⟩
    · rw [hclient] at h
      cases h
    · by_cases hn : n = 0
      · simp only [Session.step, hclient, if_pos hn] at h
        cases h
      · obtain ⟨b, hb, hwriten⟩ := Session.clientWriten_eq
          (s := ⟨stdin, .sending unsent, cb, up ++ unsent.take n, .reading line, sb, [], stdout⟩) hcb (unsent.drop n)
        simp only [Session.step, hclient, if_neg hn, hwriten] at h
        obtain rfl := Option.some.inj h
        have hsame : line ++ (up ++ unsent) = line ++ (up ++ unsent.take n ++ unsent.drop n) := by
          rw [List.append_assoc up, List.take_append_drop]
        rw [hsame] at htext hdef hc
        refine ⟨.asking hb hsb hopen htext hdef hc, ?_⟩
        have hmoved := length_moved hne hn
        rw [rank_asking, rank_asking, ← hsame, List.length_append]
        omega
  case clientReads =>
    rcases clientAt_cases unsent with ⟨hclient, -⟩ | ⟨hclient, -⟩
    · rw [hclient] at h
      cases h
    · rw [hclient] at h
      cases h
  case serverWrites => cases h
  case serverReads =>
    simp only [Session.step, ended_clientAt] at h
    obtain ⟨⟨bytes, rest⟩, hread, htook⟩ := Option.map_eq_some_iff.mp h
    obtain ⟨rfl, hne, hlength⟩ := delivered_some hread
    have hsame : line ++ (bytes ++ rest ++ unsent) = line ++ bytes ++ (rest ++ unsent) := by
      rw [List.append_assoc bytes, List.append_assoc]
    rw [hsame] at htext hdef hc
    have hpos := List.length_pos_of_ne_nil hne
    -- the text has arrived to its end, or there is more to come
    by_cases hwhole : IsPiece (lineEnds MAXLINE) (line ++ bytes)
    · have hlast : rest ++ unsent = [] := by
        rcases htext with hpiece | hopen'
        · by_contra hmore
          refine (hpiece.open_of_prefix (List.prefix_append _ _) fun heq => ?_).not_isPiece hwhole
          exact hmore (List.append_right_eq_self.mp heq.symm)
        · exact absurd hwhole (hopen'.of_prefix (List.prefix_append _ _)).not_isPiece
      obtain ⟨rfl, rfl⟩ := List.append_eq_nil_iff.mp hlast
      rw [List.append_nil, List.append_nil] at hdef hc
      obtain ⟨⟨reply, hreply⟩, hdef⟩ := defined_cons hdef
      obtain ⟨hpiece, hzero⟩ := answer_line hreply
      obtain ⟨b, hb, heq⟩ := Session.serverTook_piece
        (s := ⟨stdin, clientAt [], cb, [], .reading line, sb, [], stdout⟩) hsb hopen hne hlength hwhole hreply
      obtain rfl := htook.symm.trans heq
      have hserver : serverAt reply = .sending reply := if_neg hpiece.ne_nil
      rw [converse, if_pos hwhole.whole, hreply] at hc
      rw [← hserver]
      refine ⟨.answering hcb hb open_nil hpiece hzero hdef hc, ?_⟩
      have hreplyLength : replyLength (line ++ bytes) = reply.length := by
        rw [replyLength, hreply]
        rfl
      have hrank : Session.rank ⟨stdin, clientAt [], cb, [], serverAt reply, b, [], stdout⟩ = _ := rank_answering
      rw [hrank, rank_asking, List.append_nil, List.append_nil, if_neg hwhole.ne_nil, hreplyLength, List.length_nil]
      omega
    · have hmore : Open (lineEnds MAXLINE) (line ++ bytes) := by
        rcases htext with hpiece | hopen'
        · exact hpiece.open_of_prefix (List.prefix_append _ _) fun heq => hwhole (heq ▸ hpiece)
        · exact hopen'.of_prefix (List.prefix_append _ _)
      obtain ⟨b, hb, heq⟩ := Session.serverTook_open
        (s := ⟨stdin, clientAt unsent, cb, rest, .reading line, sb, [], stdout⟩) hsb hopen hne hlength hmore
      obtain rfl := htook.symm.trans heq
      refine ⟨.asking hcb hb hmore htext hdef hc, ?_⟩
      rw [rank_asking, rank_asking, hsame, List.length_append]
      dsimp only
      omega
  case clientDies => exact he.elim
  case serverDies => exact he.elim

theorem answering_step (he : e.Peaceful) (hcb : Drained cb) (hsb : Drained sb) (hopen : Open (lineEnds MAXLINE) line)
    (hreply : IsPiece (lineEnds MAXLINE) (line ++ (down ++ unsent))) (hzero : 0 ∉ line ++ (down ++ unsent))
    (hdef : Defined (requests stdin))
    (hc : ((converse (requests stdin)).behind (line ++ (down ++ unsent))).behind stdout = c)
    (h : Session.step ⟨stdin, .reading line, cb, [], serverAt unsent, sb, down, stdout⟩ e = some s') :
    Phase c s' ∧ s'.rank < Session.rank ⟨stdin, .reading line, cb, [], serverAt unsent, sb, down, stdout⟩ := by
  rcases e with _ | n | n | n | n | _ | _
  case typed => cases h
  case clientWrites => cases h
  case clientReads =>
    simp only [Session.step, ended_serverAt] at h
    obtain ⟨⟨bytes, rest⟩, hread, htook⟩ := Option.map_eq_some_iff.mp h
    obtain ⟨rfl, hne, hlength⟩ := delivered_some hread
    have hsame : line ++ (bytes ++ rest ++ unsent) = line ++ bytes ++ (rest ++ unsent) := by
      rw [List.append_assoc bytes, List.append_assoc]
    rw [hsame] at hreply hzero hc
    have hpos := List.length_pos_of_ne_nil hne
    by_cases hlast : rest ++ unsent = []
    · -- the whole answer is here, and shown
      obtain ⟨rfl, rfl⟩ := List.append_eq_nil_iff.mp hlast
      rw [List.append_nil, List.append_nil] at hreply hzero hc
      obtain ⟨b, hb, heq⟩ := Session.clientTook_piece
        (s := ⟨stdin, .reading line, cb, [], serverAt [], sb, [], stdout⟩) hcb hopen hne hlength hreply hzero
      obtain rfl := htook.symm.trans heq
      rw [Converse.behind_behind] at hc
      refine ⟨.idle hb hsb hdef hc, ?_⟩
      have hrank : Session.rank ⟨stdin, .prompting, b, [], serverAt [], sb, [], stdout ++ (line ++ bytes)⟩ = _ := rank_idle
      rw [hrank, rank_answering, List.append_nil, List.length_nil]
      omega
    · have hmore : Open (lineEnds MAXLINE) (line ++ bytes) :=
        hreply.open_of_prefix (List.prefix_append _ _) fun heq => hlast (List.append_right_eq_self.mp heq.symm)
      obtain ⟨b, hb, heq⟩ := Session.clientTook_open
        (s := ⟨stdin, .reading line, cb, [], serverAt unsent, sb, rest, stdout⟩) hcb hopen hne hlength hmore
      obtain rfl := htook.symm.trans heq
      refine ⟨.answering hb hsb hmore hreply hzero hdef hc, ?_⟩
      rw [rank_answering, rank_answering, List.length_append]
      dsimp only
      omega
  case serverWrites =>
    rcases serverAt_cases unsent with ⟨hserver, -⟩ | ⟨hserver, hne⟩
    · rw [hserver] at h
      cases h
    · by_cases hn : n = 0
      · simp only [Session.step, hserver, if_pos hn] at h
        cases h
      · obtain ⟨b, hb, hwriten⟩ := Session.serverWriten_eq
          (s := ⟨stdin, .reading line, cb, [], .sending unsent, sb, down ++ unsent.take n, stdout⟩) hsb (unsent.drop n)
        simp only [Session.step, hserver, if_neg hn, hwriten] at h
        obtain rfl := Option.some.inj h
        have hsame : line ++ (down ++ unsent) = line ++ (down ++ unsent.take n ++ unsent.drop n) := by
          rw [List.append_assoc down, List.take_append_drop]
        rw [hsame] at hreply hzero hc
        refine ⟨.answering hcb hb hopen hreply hzero hdef hc, ?_⟩
        have hmoved := length_moved hne hn
        rw [rank_answering, rank_answering, List.length_append]
        omega
  case serverReads =>
    rcases serverAt_cases unsent with ⟨hserver, -⟩ | ⟨hserver, -⟩
    · rw [hserver] at h
      cases h
    · rw [hserver] at h
      cases h
  case clientDies => exact he.elim
  case serverDies => exact he.elim

/-- The server meets the end of file. -/
theorem over_step (he : e.Peaceful) (hsb : Drained sb) {server : Server}
    (hserver : server = .reading [] ∨ server = .exited) (hc : (converse []).behind stdout = c)
    (h : Session.step ⟨[], .exited, cb, [], server, sb, [], stdout⟩ e = some s') :
    Phase c s' ∧ s'.rank < Session.rank ⟨[], .exited, cb, [], server, sb, [], stdout⟩ := by
  rcases e with _ | n | n | n | n | _ | _
  case typed => cases h
  case clientWrites => cases h
  case clientReads => cases h
  case serverWrites => rcases hserver with rfl | rfl <;> cases h
  case serverReads =>
    rcases hserver with rfl | rfl
    · obtain ⟨b, hb, heq⟩ := Session.serverTook_eof (s := ⟨[], .exited, cb, [], .reading [], sb, [], stdout⟩) hsb
      obtain rfl := (Option.some.inj h).symm.trans heq
      refine ⟨.ended hb (.inr rfl) hc, ?_⟩
      rw [rank_over, rank_over]
      exact Nat.zero_lt_one
    · cases h
  case clientDies => exact he.elim
  case serverDies => exact he.elim

theorem Phase.step (he : e.Peaceful) {s : Session} (hs : Phase c s) (h : s.step e = some s') :
    Phase c s' ∧ s'.rank < s.rank := by
  cases hs with
  | idle hcb hsb hdef hc => exact idle_step he hcb hsb hdef hc h
  | asking hcb hsb hopen htext hdef hc => exact asking_step he hcb hsb hopen htext hdef hc h
  | answering hcb hsb hopen hreply hzero hdef hc => exact answering_step he hcb hsb hopen hreply hzero hdef hc h
  | ended hsb hserver hc => exact over_step he hsb hserver hc h

/-! How it ends. -/

/-- Everything is shown, and both have ended, or both wait behind a text that is no whole line. -/
def Finished (c : Converse) (s : Session) : Prop :=
  s.stdout = c.shown ∧ s.up = [] ∧ s.down = [] ∧
    match c.unanswered with
    | none => s.client = .exited ∧ s.server = .exited
    | some text => s.client = .reading [] ∧ s.server = .reading text

theorem delivered_one {sent : Bytes} (hne : sent ≠ []) (ended : Bool) :
    delivered sent ended 1 = some (sent.take 1, sent.drop 1) := by
  rw [delivered, if_neg hne, if_neg Nat.one_ne_zero]
  rfl

theorem Phase.finished {s : Session} (hs : Phase c s) (h : Stuck Session.step Event.Peaceful s) : Finished c s := by
  cases hs with
  | @idle stdin cb sb stdout hcb hsb hdef hc =>
    have htyped := h .typed trivial
    by_cases hnil : stdin = []
    · rw [hnil] at htyped
      cases htyped
    · obtain ⟨text, rest, hfgets, -⟩ := fgets_cons hnil
      simp only [Session.step, hfgets] at htyped
      cases htyped
  | @asking stdin unsent cb up line sb stdout hcb hsb hopen htext hdef hc =>
    rcases clientAt_cases unsent with ⟨hclient, rfl⟩ | ⟨hclient, hne⟩
    · by_cases hup : up = []
      · -- the server has the whole text, and waits for more
        subst hup
        have hline : lineEnds MAXLINE line = false := by
          by_cases hnil : line = []
          · rw [hnil]
            rfl
          · exact hopen line List.prefix_rfl hnil
        rw [List.append_nil, List.append_nil, converse, if_neg (Bool.eq_false_iff.mp hline)] at hc
        subst hc
        exact ⟨(List.append_nil stdout).symm, rfl, rfl, rfl, rfl⟩
      · have hread := h (.serverReads 1) trivial
        rw [Session.step, delivered_one hup] at hread
        cases hread
    · have hwrite := h (.clientWrites 1) trivial
      rw [hclient] at hwrite
      cases hwrite
  | @answering stdin line cb unsent sb down stdout hcb hsb hopen hreply hzero hdef hc =>
    rcases serverAt_cases unsent with ⟨hserver, rfl⟩ | ⟨hserver, hne⟩
    · by_cases hdown : down = []
      · rw [hdown, List.append_nil, List.append_nil] at hreply
        exact absurd hreply hopen.not_isPiece
      · have hread := h (.clientReads 1) trivial
        rw [Session.step, delivered_one hdown] at hread
        cases hread
    · have hwrite := h (.serverWrites 1) trivial
      rw [hserver] at hwrite
      cases hwrite
  | @ended cb sb server stdout hsb hserver hc =>
    rcases hserver with rfl | rfl
    · have hread := h (.serverReads 1) trivial
      cases hread
    · subst hc
      exact ⟨(List.append_nil stdout).symm, rfl, rfl, rfl, rfl⟩

theorem Finished.stuck {s : Session} (h : Finished c s) : Stuck Session.step Event.Peaceful s := by
  obtain ⟨stdin, client, cb, up, server, sb, down, stdout⟩ := s
  obtain ⟨-, hup, hdown, hends⟩ := h
  obtain rfl : up = [] := hup
  obtain rfl : down = [] := hdown
  intro e he
  cases hc : c.unanswered with
  | none =>
    rw [hc] at hends
    obtain ⟨hclient, hserver⟩ := hends
    obtain rfl : client = .exited := hclient
    obtain rfl : server = .exited := hserver
    cases e <;> rfl
  | some text =>
    rw [hc] at hends
    obtain ⟨hclient, hserver⟩ := hends
    obtain rfl : client = .reading [] := hclient
    obtain rfl : server = .reading text := hserver
    cases e <;> first | rfl | exact he.elim

theorem phase_start {stdin : Bytes} (hdef : Defined (requests stdin)) :
    Phase (converse (requests stdin)) { stdin := stdin } := .idle drained_start drained_start hdef rfl

theorem Phase.play {s s' : Session} {es : List Event} (hs : Phase c s) (hes : ∀ e ∈ es, e.Peaceful)
    (h : play Session.step s es = some s') : Phase c s' :=
  play_inv (fun _ _ _ he hs h => (hs.step he h).1) hes hs h

/-- Of a session in which nobody dies: no run is longer than its texts and their answers
    allow, and it can go on until everything is shown that comes before the first text
    that is no whole line. There it ends: with both processes, when there is no such
    text, and otherwise with the two waiting for each other. -/
theorem session_ends (stdin : Bytes) (hdef : Defined (requests stdin)) :
    (∀ es s, (∀ e ∈ es, e.Peaceful) → play Session.step { stdin := stdin } es = some s →
        es.length ≤ cost (requests stdin) + 2 ∧
          (Stuck Session.step Event.Peaceful s ↔ Finished (converse (requests stdin)) s)) ∧
      ∃ es s, (∀ e ∈ es, e.Peaceful) ∧ play Session.step { stdin := stdin } es = some s ∧
        Finished (converse (requests stdin)) s := by
  let c := converse (requests stdin)
  have hstart : Phase c { stdin := stdin } := phase_start hdef
  have hstep : ∀ s e s', Event.Peaceful e → Phase c s → s.step e = some s' → Phase c s' ∧ s'.rank < s.rank :=
    fun s e s' he hs h => hs.step he h
  constructor
  · intro es s hes hplay
    refine ⟨?_, (hstart.play hes hplay).finished, Finished.stuck⟩
    have hrank := play_rank hstep hes hstart hplay
    have hfirst : Session.rank { stdin := stdin } = cost (requests stdin) + 2 := rank_idle
    omega
  · obtain ⟨es, s, hes, hplay, hstuck⟩ := exists_stuck hstep hstart
    exact ⟨es, s, hes, hplay, (hstart.play hes hplay).finished hstuck⟩

/-- `1 2`, and a 3 without a newline. -/
theorem session_ends_three :
    Defined (requests [49, 32, 50, 10, 51]) ∧ ∃ es s, (∀ e ∈ es, e.Peaceful) ∧
      play Session.step { stdin := [49, 32, 50, 10, 51] } es = some s ∧
        Finished (converse (requests [49, 32, 50, 10, 51])) s :=
  have hdef : Defined (requests [49, 32, 50, 10, 51]) := by decide
  ⟨hdef, (session_ends [49, 32, 50, 10, 51] hdef).2⟩

/-! Anybody may die. -/

theorem Phase.stdout_prefix {s : Session} (hs : Phase c s) : s.stdout <+: c.shown := by
  have hbehind : ∀ (out : Bytes) (c' : Converse), out <+: (c'.behind out).shown := fun out c' => List.prefix_append _ _
  cases hs with
  | idle hcb hsb hdef hc => exact hc ▸ hbehind _ _
  | asking hcb hsb hopen htext hdef hc => exact hc ▸ hbehind _ _
  | answering hcb hsb hopen hreply hzero hdef hc => exact hc ▸ hbehind _ _
  | ended hsb hserver hc => exact hc ▸ hbehind _ _

/-- The server has died, and the client goes on: of an answer that it has begun to read, no more than
    what is on its way will come. -/
inductive Alone (c : Converse) : Session → Prop where
  | reading {stdin line full : Bytes} {cb : ReadBuf} {up : Bytes} {sb : ReadBuf} {down stdout : Bytes} (hcb : Drained cb)
      (hopen : Open (lineEnds MAXLINE) line) (hcome : line ++ down <+: full)
      (hfull : IsPiece (lineEnds MAXLINE) full ∨ full = []) (hzero : 0 ∉ full) (hshown : stdout ++ full <+: c.shown) :
      Alone c ⟨stdin, .reading line, cb, up, .died, sb, down, stdout⟩
  | writing {stdin : Bytes} {client : Client} {cb : ReadBuf} {up : Bytes} {sb : ReadBuf} {stdout : Bytes} (hcb : Drained cb)
      (hclient : client = .prompting ∨ ∃ unsent, client = .sending unsent) (hshown : stdout <+: c.shown) :
      Alone c ⟨stdin, client, cb, up, .died, sb, [], stdout⟩

/-- The client has ended: by itself with everything shown, if the server is not dead. -/
structure Gone (c : Converse) (s : Session) : Prop where
  ended : s.client.ended = true
  shown : s.stdout <+: c.shown
  whole : s.client = .exited → s.server ≠ .died → s.stdout = c.shown ∧ c.unanswered = none

theorem alone_clientAt {stdin unsent up : Bytes} {cb sb : ReadBuf} {stdout : Bytes} (hcb : Drained cb)
    (hshown : stdout <+: c.shown) : Alone c ⟨stdin, clientAt unsent, cb, up, .died, sb, [], stdout⟩ := by
  rcases clientAt_cases unsent with ⟨hclient, -⟩ | ⟨hclient, -⟩
  · rw [hclient]
    refine .reading hcb open_nil List.prefix_rfl (.inr rfl) List.not_mem_nil ?_
    rw [List.append_nil, List.append_nil]
    exact hshown
  · rw [hclient]
    exact .writing hcb (.inr ⟨unsent, rfl⟩) hshown

theorem Phase.serverDies {s s' : Session} (hs : Phase c s) (h : s.step .serverDies = some s') : Alone c s' ∨ Gone c s' := by
  have hshown := hs.stdout_prefix
  cases hs with
  | idle hcb hsb hdef hc =>
    obtain rfl := Option.some.inj h
    exact .inl (.writing hcb (.inl rfl) hshown)
  | asking hcb hsb hopen htext hdef hc =>
    obtain rfl := Option.some.inj h
    exact .inl (alone_clientAt hcb hshown)
  | answering hcb hsb hopen hreply hzero hdef hc =>
    simp only [Session.step, ended_serverAt] at h
    obtain rfl := Option.some.inj h
    refine .inl (.reading hcb hopen ?_ (.inl hreply) hzero ?_)
    · rw [← List.append_assoc]
      exact List.prefix_append _ _
    · rw [← hc, Converse.behind_behind]
      exact List.prefix_append _ _
  | ended hsb hserver hc =>
    rcases hserver with rfl | rfl
    · obtain rfl := Option.some.inj h
      exact .inr ⟨rfl, hshown, fun _ hnot => absurd rfl hnot⟩
    · cases h

theorem Alone.step {s s' : Session} (hs : Alone c s) (h : s.step e = some s') : Alone c s' ∨ Gone c s' := by
  cases hs with
  | @reading stdin line full cb up sb down stdout hcb hopen hcome hfull hzero hshown =>
    have hout : stdout <+: c.shown := (List.prefix_append _ _).trans hshown
    rcases e with _ | n | n | n | n | _ | _
    case typed => cases h
    case clientWrites => cases h
    case serverWrites => cases h
    case serverReads => cases h
    case serverDies => cases h
    case clientDies =>
      obtain rfl := Option.some.inj h
      exact .inr ⟨rfl, hout, fun _ hnot => absurd rfl hnot⟩
    case clientReads =>
      obtain ⟨⟨bytes, rest⟩, hread, htook⟩ := Option.map_eq_some_iff.mp h
      rcases delivered_cases hread with ⟨rfl, -, rfl, rfl⟩ | ⟨rfl, hne, hlength⟩
      · -- the end of file: the beginning of an answer is shown as if it were all of it
        rw [List.append_nil] at hcome
        obtain ⟨b, hb, heq⟩ := Session.clientTook_eof (s := ⟨stdin, .reading line, cb, up, .died, sb, [], stdout⟩) hcb
          hopen fun hmem => hzero (hcome.subset hmem)
        obtain rfl := htook.symm.trans heq
        by_cases hnil : line = []
        · rw [if_pos hnil]
          exact .inr ⟨rfl, hout, fun _ hnot => absurd rfl hnot⟩
        · rw [if_neg hnil]
          exact .inl (.writing hb (.inl rfl) (((List.prefix_append_right_inj stdout).mpr hcome).trans hshown))
      · rw [← List.append_assoc] at hcome
        have hpart : line ++ bytes <+: full := (List.prefix_append _ _).trans hcome
        have hpiece : IsPiece (lineEnds MAXLINE) full := by
          refine hfull.resolve_right fun hnil => hne ?_
          rw [hnil] at hpart
          exact (List.append_eq_nil_iff.mp (List.prefix_nil.mp hpart)).2
        by_cases hall : line ++ bytes = full
        · obtain ⟨b, hb, heq⟩ := Session.clientTook_piece
            (s := ⟨stdin, .reading line, cb, up, .died, sb, rest, stdout⟩) hcb hopen hne hlength (hall ▸ hpiece)
            (hall ▸ hzero)
          obtain rfl := htook.symm.trans heq
          have hrest : rest = [] := by
            rw [← hall] at hcome
            exact List.append_right_eq_self.mp (hcome.eq_of_length_le (List.prefix_append _ _).length_le)
          subst hrest
          rw [← hall] at hshown
          exact .inl (.writing hb (.inl rfl) hshown)
        · obtain ⟨b, hb, heq⟩ := Session.clientTook_open
            (s := ⟨stdin, .reading line, cb, up, .died, sb, rest, stdout⟩) hcb hopen hne hlength
            (hpiece.open_of_prefix hpart hall)
          obtain rfl := htook.symm.trans heq
          exact .inl (.reading hb (hpiece.open_of_prefix hpart hall) hcome hfull hzero hshown)
  | @writing stdin client cb up sb stdout hcb hclient hshown =>
    rcases e with _ | n | n | n | n | _ | _
    case typed =>
      rcases hclient with rfl | ⟨unsent, rfl⟩
      · by_cases hnil : stdin = []
        · subst hnil
          obtain rfl := Option.some.inj h
          exact .inr ⟨rfl, hshown, fun _ hnot => absurd rfl hnot⟩
        · obtain ⟨text, rest, hfgets, -⟩ := fgets_cons hnil
          obtain ⟨b, hb, hwriten⟩ := Session.clientWriten_eq
            (s := ⟨rest, .prompting, cb, up, .died, sb, [], stdout⟩) hcb (cstring text)
          simp only [Session.step, hfgets, hwriten] at h
          obtain rfl := Option.some.inj h
          exact .inl (alone_clientAt hb hshown)
      · cases h
    case clientWrites =>
      rcases hclient with rfl | ⟨unsent, rfl⟩
      · cases h
      · by_cases hn : n = 0
        · simp only [Session.step, if_pos hn] at h
          cases h
        · obtain ⟨b, hb, hwriten⟩ := Session.clientWriten_eq
            (s := ⟨stdin, .sending unsent, cb, up ++ unsent.take n, .died, sb, [], stdout⟩) hcb (unsent.drop n)
          simp only [Session.step, if_neg hn, hwriten] at h
          obtain rfl := Option.some.inj h
          exact .inl (alone_clientAt hb hshown)
    case clientReads => rcases hclient with rfl | ⟨unsent, rfl⟩ <;> cases h
    case serverWrites => cases h
    case serverReads => cases h
    case serverDies => cases h
    case clientDies =>
      rcases hclient with rfl | ⟨unsent, rfl⟩ <;>
      · obtain rfl := Option.some.inj h
        exact .inr ⟨rfl, hshown, fun _ hnot => absurd rfl hnot⟩

theorem serverTook_frame (s : Session) (r : Reading) :
    (s.serverTook r).client = s.client ∧ (s.serverTook r).stdout = s.stdout := by
  rw [Session.serverTook]
  split
  · exact ⟨rfl, rfl⟩
  · split
    · exact ⟨rfl, rfl⟩
    · split
      · exact ⟨rfl, rfl⟩
      · split
        · exact ⟨rfl, rfl⟩
        · exact ⟨rfl, rfl⟩

theorem serverWriten_frame (s : Session) (unsent : Bytes) :
    (s.serverWriten unsent).client = s.client ∧ (s.serverWriten unsent).stdout = s.stdout := by
  rw [Session.serverWriten]
  split
  · exact serverTook_frame s _
  · exact ⟨rfl, rfl⟩

/-- A client that has ended stays as it is. -/
theorem gone_frame {s s' : Session} (hended : s.client.ended = true) (h : s.step e = some s') :
    s'.client = s.client ∧ s'.stdout = s.stdout ∧ (s'.server ≠ .died → s.server ≠ .died) := by
  obtain ⟨stdin, client, cb, up, server, sb, down, stdout⟩ := s
  rcases e with _ | n | n | n | n | _ | _
  case typed => cases client <;> cases hended <;> cases h
  case clientWrites => cases client <;> cases hended <;> cases h
  case clientReads => cases client <;> cases hended <;> cases h
  case serverWrites =>
    cases server with
    | sending unsent =>
      by_cases hn : n = 0
      · simp only [Session.step, if_pos hn] at h
        cases h
      · simp only [Session.step, if_neg hn] at h
        obtain rfl := Option.some.inj h
        obtain ⟨hclient, hstdout⟩ := serverWriten_frame
          ⟨stdin, client, cb, up, .sending unsent, sb, down ++ unsent.take n, stdout⟩ (unsent.drop n)
        exact ⟨hclient, hstdout, fun _ => nofun⟩
    | _ => cases h
  case serverReads =>
    cases server with
    | reading line =>
      obtain ⟨⟨bytes, rest⟩, -, rfl⟩ := Option.map_eq_some_iff.mp h
      obtain ⟨hclient, hstdout⟩ := serverTook_frame ⟨stdin, client, cb, rest, .reading line, sb, down, stdout⟩
        (readlineLoop (MAXLINE - 1 - line.length) line sb [.arrived bytes])
      exact ⟨hclient, hstdout, fun _ => nofun⟩
    | _ => cases h
  case clientDies =>
    rw [Session.step, if_pos hended] at h
    cases h
  case serverDies =>
    by_cases hserver : server.ended = true
    · simp only [Session.step, if_pos hserver] at h
      cases h
    · simp only [Session.step, if_neg hserver] at h
      obtain rfl := Option.some.inj h
      exact ⟨rfl, rfl, fun hnot => absurd rfl hnot⟩

theorem Gone.step {s s' : Session} (hs : Gone c s) (h : s.step e = some s') : Gone c s' := by
  obtain ⟨hclient, hstdout, hserver⟩ := gone_frame hs.ended h
  refine ⟨hclient ▸ hs.ended, hstdout ▸ hs.shown, fun hexited halive => ?_⟩
  rw [hstdout]
  exact hs.whole (hclient ▸ hexited) (hserver halive)

theorem Phase.clientDies {s s' : Session} (hs : Phase c s) (h : s.step .clientDies = some s') : Gone c s' := by
  by_cases hended : s.client.ended = true
  · rw [Session.step, if_pos hended] at h
    cases h
  · rw [Session.step, if_neg hended] at h
    obtain rfl := Option.some.inj h
    exact ⟨rfl, hs.stdout_prefix, nofun⟩

/-- Wherever a session stands. -/
def Stands (c : Converse) (s : Session) : Prop := Phase c s ∨ Alone c s ∨ Gone c s

theorem Stands.step {s s' : Session} (hs : Stands c s) (h : s.step e = some s') : Stands c s' := by
  rcases hs with hphase | halone | hgone
  · by_cases he : e.Peaceful
    · exact .inl (hphase.step he h).1
    · cases e with
      | clientDies => exact .inr (.inr (hphase.clientDies h))
      | serverDies => exact .inr (hphase.serverDies h)
      | _ => exact absurd trivial he
  · exact .inr (halone.step h)
  · exact .inr (.inr (hgone.step h))

/-- Whatever happens, and whoever dies: what the client has shown is the beginning of the
    answers to the texts before the first that is no whole line. A client that has come
    to the end of its input has shown all of them, and there was no such text, unless the
    server is dead. -/
theorem shown_begins (stdin : Bytes) (hdef : Defined (requests stdin)) (es : List Event) (s : Session)
    (hplay : play Session.step { stdin := stdin } es = some s) :
    s.stdout <+: (converse (requests stdin)).shown ∧
      (s.client = .exited → s.server ≠ .died →
        s.stdout = (converse (requests stdin)).shown ∧ (converse (requests stdin)).unanswered = none) := by
  have hstart : Stands (converse (requests stdin)) { stdin := stdin } :=
    .inl (phase_start hdef)
  have hstands : Stands (converse (requests stdin)) s :=
    play_inv (fun s e s' _ hs h => hs.step h) (fun _ _ => trivial) hstart hplay
  rcases hstands with hphase | halone | hgone
  · refine ⟨hphase.stdout_prefix, fun hexited _ => ?_⟩
    cases hphase with
    | idle hcb hsb hdef hc => cases hexited
    | @asking stdin unsent cb up line sb stdout hcb hsb hopen htext hdef hc =>
      have hended := ended_clientAt unsent
      rw [show clientAt unsent = .exited from hexited] at hended
      cases hended
    | answering hcb hsb hopen hreply hzero hdef hc => cases hexited
    | ended hsb hserver hc =>
      rw [← hc]
      exact ⟨(List.append_nil _).symm, rfl⟩
  · cases halone with
    | reading hcb hopen hcome hfull hzero hshown =>
      exact ⟨(List.prefix_append _ _).trans hshown, fun _ hnot => absurd rfl hnot⟩
    | writing hcb hclient hshown => exact ⟨hshown, fun _ hnot => absurd rfl hnot⟩
  · exact ⟨hgone.shown, hgone.whole⟩

/-- The server dies when it has written the first of two bytes. -/
theorem shown_begins_dies :
    let es : List Event := [.typed, .clientWrites 9, .serverReads 9, .serverWrites 1, .serverDies, .clientReads 9]
    Defined (requests [49, 32, 50, 10]) ∧ ∃ s, play Session.step { stdin := [49, 32, 50, 10] } es = some s ∧
      s.stdout <+: (converse (requests [49, 32, 50, 10])).shown := by
  intro es
  have hdef : Defined (requests [49, 32, 50, 10]) := by decide
  have hsome : (play Session.step { stdin := [49, 32, 50, 10] } es).isSome = true := by decide
  obtain ⟨s, hs⟩ := Option.isSome_iff_exists.mp hsome
  exact ⟨hdef, s, hs, (shown_begins _ hdef es s hs).1⟩

/-! Lines of two numbers. -/

/-- `printf("%ld %ld\n", m, n)` -/
def sumLine (p : Int × Int) : Bytes := longText p.1 ++ (32 :: (longText p.2 ++ [10]))

/-- Two numbers that fit a `long`, as does their sum. -/
def Summable (p : Int × Int) : Prop := IsLong p.1 ∧ IsLong p.2 ∧ IsLong (p.1 + p.2)

theorem answer_sumLine {p : Int × Int} (hp : Summable p) : answer (sumLine p) = some (longText (p.1 + p.2) ++ [10]) :=
  answer_sum hp.1 hp.2.1 hp.2.2 (fun _ hb => absurd hb List.not_mem_nil) (List.forall_mem_singleton.mpr (by decide))
    (.inl (List.cons_ne_nil 32 [])) (fun _ hb => Option.some.inj hb ▸ rfl)

theorem sumLine_isPiece {p : Int × Int} (hp : Summable p) :
    IsPiece (lineEnds MAXLINE) (sumLine p) ∧ cstring (sumLine p) = sumLine p := by
  have hlong : ∀ {b : UInt8}, isDigit b = false → b ≠ 45 → ∀ n, b ∉ longText n := fun h h' n => not_mem_longText h h' n
  have hshape : sumLine p = longText p.1 ++ (32 :: longText p.2) ++ [10] := by
    rw [sumLine, List.append_assoc]
    rfl
  have hfirst := length_longText hp.1
  have hsecond := length_longText hp.2.1
  rw [hshape]
  constructor
  · apply isPiece_line
    · rw [List.mem_append, List.mem_cons, not_or, not_or]
      exact ⟨hlong rfl (by decide) _, by decide, hlong rfl (by decide) _⟩
    · rw [List.length_append, List.length_cons, MAXLINE]
      omega
  · apply cstring_of_zero_not_mem
    rw [List.mem_append, List.mem_append, List.mem_cons, not_or, not_or, not_or]
    exact ⟨⟨hlong rfl (by decide) _, by decide, hlong rfl (by decide) _⟩, by decide⟩

theorem requests_sumLines {ps : List (Int × Int)} (hps : ∀ p ∈ ps, Summable p) :
    requests (ps.map sumLine).flatten = ps.map sumLine := by
  have hpieces : ∀ line ∈ ps.map sumLine, IsPiece (lineEnds MAXLINE) line :=
    List.forall_mem_map.mpr fun p hp => (sumLine_isPiece (hps p hp)).1
  have hcut : cut (lineEnds MAXLINE) [] (ps.map sumLine).flatten = (ps.map sumLine, []) := by
    rw [← List.append_nil (ps.map sumLine).flatten]
    exact cut_flatten hpieces open_nil
  simp only [requests, hcut, if_true, List.append_nil]
  rw [List.map_map]
  exact List.map_congr_left fun p hp => (sumLine_isPiece (hps p hp)).2

theorem converse_sumLines {ps : List (Int × Int)} (hps : ∀ p ∈ ps, Summable p) :
    converse (ps.map sumLine) = ⟨(ps.map fun p => longText (p.1 + p.2) ++ [10]).flatten, none⟩ := by
  induction ps with
  | nil => rfl
  | cons p ps ih =>
    obtain ⟨hp, hps⟩ := List.forall_mem_cons.mp hps
    rw [List.map_cons, converse, if_pos (sumLine_isPiece hp).1.whole, answer_sumLine hp, ih hps]
    rfl

/-- Of lines with two numbers the client shows the sums, line by line, and both processes end. -/
theorem adds_up (ps : List (Int × Int)) (hps : ∀ p ∈ ps, Summable p) (es : List Event) (s : Session)
    (hes : ∀ e ∈ es, e.Peaceful) (hplay : play Session.step { stdin := (ps.map sumLine).flatten } es = some s)
    (hstuck : Stuck Session.step Event.Peaceful s) :
    s.stdout = (ps.map fun p => longText (p.1 + p.2) ++ [10]).flatten ∧ s.client = .exited ∧ s.server = .exited := by
  have hdef : Defined (requests (ps.map sumLine).flatten) := by
    rw [requests_sumLines hps]
    exact List.forall_mem_map.mpr fun p hp => by rw [answer_sumLine (hps p hp)]; rfl
  have hfinished := ((phase_start hdef).play hes hplay).finished hstuck
  rw [requests_sumLines hps, converse_sumLines hps] at hfinished
  obtain ⟨hshown, -, -, hclient, hserver⟩ := hfinished
  exact ⟨hshown, hclient, hserver⟩

theorem adds_up_one : ∃ es s, play Session.step { stdin := ([(7, -2)].map sumLine).flatten } es = some s ∧
    s.stdout = [53, 10] ∧ s.client = .exited := by
  have hps : ∀ p ∈ [((7 : Int), (-2 : Int))], Summable p := List.forall_mem_singleton.mpr (by unfold Summable; decide)
  have hdef : Defined (requests ([(7, -2)].map sumLine).flatten) := by decide
  obtain ⟨es, s, hes, hplay, hstuck⟩ := exists_stuck (fun _ _ _ he hs h => Phase.step he hs h) (phase_start hdef)
  have hends := adds_up [(7, -2)] hps es s hes hplay hstuck
  exact ⟨es, s, hplay, hends.1, hends.2.1⟩

end

end RubbishStore.Socket.AddSession
