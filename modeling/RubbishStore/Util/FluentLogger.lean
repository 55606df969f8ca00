import Mathlib.Data.List.Infix
import RubbishStore.Lib.Framing
import RubbishStore.Lib.Runs
import RubbishStore.Lib.Text

/- `Util_Nlog_FluentLogger`, as far as it sends. `post` connects when there is no socket
   and writes its message in a loop: a write may take some of the bytes, or none (which
   is tried again, over a new connection when the last error of the script speaks of a
   broken pipe), or end the post with an error. What the network answers is given call
   by call. `post_spec` says what becomes of one message, whatever the answers, and
   `receives_iff` what the other side makes of a run of posts: it reads the messages
   that were posted with success, each once and in order, as long as no message breaks
   off or goes on over another connection.
   `pack` and `processError` belong to `BaseLogger`: the messages come here as bytes,
   and the errors are listed. -/
namespace RubbishStore.Util
open RubbishStore.Lib

/-- What `fwrite` returns. -/
inductive Fwritten where
  | failed
  /-- the empty string -/
  | null
  /-- so many bytes, or all that it is given if these are fewer -/
  | took (n : Nat)
  deriving DecidableEq, Repr

/-- What `fwrite` answers, and the message of the error that it raises, if it does. -/
structure Fwrite where
  result : Fwritten
  error : Option Text := none
  deriving DecidableEq, Repr

/-- The answers, by the number of calls so far. -/
structure Network where
  fwrite : Nat → Fwrite
  /-- the error's message when `stream_socket_client` fails -/
  connect : Nat → Option Text

structure Fluent where
  /-- What has gone over each connection, the newest last. -/
  connections : List Octets := []
  /-- `$this->socket` is a resource: the newest connection. -/
  connected : Bool := false
  /-- `error_get_last()`, which nothing here clears -/
  lastError : Option Text := none
  /-- What `processError` has been given. -/
  processed : List Text := []
  calls : Nat := 0
  deriving DecidableEq, Repr

namespace Fluent

/-- `const MAX_WRITE_RETRY = 5;` -/
def MAX_WRITE_RETRY : Nat := 5

/-- Bytes go over the newest connection. -/
def sent (connections : List Octets) (bytes : Octets) : List Octets :=
  connections.dropLast ++ [connections.getLastD [] ++ bytes]

/-- `reconnect()`, with what `connect()` throws. -/
def reconnect (net : Network) (f : Fluent) : Except (Text × Fluent) Fluent :=
  if f.connected then .ok f
  else
    match net.connect f.calls with
    | some message => .error (message, { f with lastError := some message, calls := f.calls + 1 })
    | none => .ok { f with connections := f.connections ++ [[]], connected := true, calls := f.calls + 1 }

def close (f : Fluent) : Fluent := { f with connected := false }

def processError (message : Text) (f : Fluent) : Fluent := { f with processed := f.processed ++ [message] }

/-- The last error of the script speaks of a broken pipe. -/
def brokenPipe (f : Fluent) : Bool :=
  match f.lastError with
  | some message => decide (chars "errno=32" <:+: message)
  | none => false

/-- `$this->write($buffer)` -/
def write (net : Network) (buffer : Octets) (f : Fluent) : Fwritten × Fluent :=
  let answer := net.fwrite f.calls
  let f := { f with calls := f.calls + 1, lastError := answer.error.orElse fun _ => f.lastError }
  match answer.result with
  | .took n => (.took (min n buffer.length), { f with connections := sent f.connections (buffer.take n) })
  | result => (result, f)

/-- The loop of `post`: what it returns, unless the rounds are used up, which they never are. -/
def postLoop (net : Network) (packed : Octets) : Nat → Nat → Nat → Fluent → Option Bool × Fluent
  | 0, _, _, f => (none, f)
  | rounds + 1, written, retry, f =>
    if written < packed.length then
      match f.write net (packed.drop written) with
      | (.failed, f) => (some false, f.processError (chars "could not write message"))
      | (.null, f) => (some false, f.processError (chars "connection aborted"))
      | (.took 0, f) =>
        if retry > MAX_WRITE_RETRY then
          (some false, f.processError (chars "failed fwrite retry: max retry count"))
        else
          match if f.brokenPipe then f.close.reconnect net else .ok f with
          | .error (message, f) => (some false, f.processError message)
          | .ok f => postLoop net packed rounds written (retry + 1) f
      | (.took n, f) => postLoop net packed rounds (written + n) retry f
    else (some true, f)

/-- Every round writes something or is one of the retries. -/
def enoughRounds (packed : Octets) : Nat := packed.length + MAX_WRITE_RETRY + 2

/-- `post`, with the message as `pack` gives it -/
def post (net : Network) (packed : Octets) (f : Fluent) : Option Bool × Fluent :=
  match f.reconnect net with
  | .error (message, f) => (some false, f.processError message)
  | .ok f => postLoop net packed (enoughRounds packed) 0 0 f

/-! One message. -/

/-- What has gone over the newest connection, and then over each new one. -/
def extend (connections : List Octets) : List Octets → List Octets
  | [] => connections
  | p :: ps => sent connections p ++ ps

theorem sent_ne_nil (connections : List Octets) (bytes : Octets) : sent connections bytes ≠ [] :=
  List.append_ne_nil_of_right_ne_nil _ (List.cons_ne_nil _ _)

theorem sent_sent (connections : List Octets) (a b : Octets) : sent (sent connections a) b = sent connections (a ++ b) := by
  rw [sent, sent, List.dropLast_concat, List.getLastD_concat, sent, List.append_assoc]

theorem sent_nil {connections : List Octets} (hne : connections ≠ []) : sent connections [] = connections := by
  rw [sent, List.append_nil, List.getLastD_eq_getLast?, List.getLast?_eq_some_getLast hne, Option.getD_some]
  exact List.dropLast_concat_getLast hne

/-- More in front of the first piece. -/
def glue (a : Octets) : List Octets → List Octets
  | [] => [a]
  | p :: ps => (a ++ p) :: ps

theorem flatten_glue (a : Octets) (ps : List Octets) : (glue a ps).flatten = a ++ ps.flatten := by
  cases ps with
  | nil => rw [glue, List.flatten_singleton, List.flatten_nil, List.append_nil]
  | cons p ps => rw [glue, List.flatten_cons, List.flatten_cons, List.append_assoc]

theorem extend_sent (connections : List Octets) (a : Octets) (ps : List Octets) :
    extend (sent connections a) ps = extend connections (glue a ps) := by
  cases ps with
  | nil => rw [extend, glue, extend, List.append_nil]
  | cons p ps => rw [extend, sent_sent, glue, extend]

/-- A new connection. -/
theorem extend_concat {connections : List Octets} (hne : connections ≠ []) (ps : List Octets) :
    extend (connections ++ [[]]) ps = extend connections ([] :: glue [] ps) := by
  have hnew : connections ++ [[]] = sent (connections ++ [[]]) [] := by
    rw [sent_nil (List.append_ne_nil_of_right_ne_nil _ (List.cons_ne_nil _ _))]
  cases ps with
  | nil => rw [extend, extend, sent_nil hne, glue]
  | cons p ps =>
    rw [extend, extend, sent_nil hne, sent, List.dropLast_concat, List.getLastD_concat, glue, List.append_assoc]
    rfl

theorem extend_first (ps : List Octets) : extend ([] ++ [[]]) ps = extend [] (glue [] ps) := extend_sent [] [] ps

/-- What a post has done: some of the bytes went out, in order, over the newest connection and then over
    new ones; all of them, or an error was processed. -/
structure Sends (bytes : Octets) (f : Fluent) (r : Option Bool × Fluent) (pieces : List Octets) : Prop where
  connections : r.2.connections = extend f.connections pieces
  inOrder : pieces.flatten <+: bytes
  returns : r.1 = some (decide (pieces.flatten = bytes))
  processed : ∃ messages, r.2.processed = f.processed ++ messages ∧
    messages.length = if pieces.flatten = bytes then 0 else 1

/-- A call that writes nothing leaves the connections alone. -/
structure Quiet (f f' : Fluent) : Prop where
  connections : f'.connections = f.connections
  processed : f'.processed = f.processed

section
variable {net : Network} {packed bytes buffer : Octets} {f f' : Fluent} {rounds written retry : Nat}

theorem write_cases (net : Network) (buffer : Octets) (f : Fluent) :
    (∃ r f', f.write net buffer = (r, f') ∧ (r = .failed ∨ r = .null) ∧ Quiet f f') ∨
      ∃ k f', f.write net buffer = (.took k, f') ∧ k ≤ buffer.length ∧ f'.processed = f.processed ∧
        f'.connections = sent f.connections (buffer.take k) := by
  rw [write]
  cases (net.fwrite f.calls).result with
  | failed => exact .inl ⟨_, _, rfl, .inl rfl, rfl, rfl⟩
  | null => exact .inl ⟨_, _, rfl, .inr rfl, rfl, rfl⟩
  | took n =>
    refine .inr ⟨_, _, rfl, Nat.min_le_right _ _, rfl, ?_⟩
    show sent f.connections (buffer.take n) = sent f.connections (buffer.take (min n buffer.length))
    rw [List.take_eq_take_min]

theorem reconnect_cases (net : Network) (f : Fluent) :
    f.connected = true ∧ f.reconnect net = .ok f ∨
      f.connected = false ∧
        ((∃ message f', f.reconnect net = .error (message, f') ∧ Quiet f f' ∧ f'.connected = false) ∨
          ∃ f', f.reconnect net = .ok f' ∧ f'.processed = f.processed ∧ f'.connections = f.connections ++ [[]]) := by
  rw [reconnect]
  cases hconnected : f.connected with
  | true => exact .inl ⟨rfl, rfl⟩
  | false =>
    refine .inr ⟨rfl, ?_⟩
    cases net.connect f.calls with
    | some message => exact .inl ⟨_, _, rfl, ⟨rfl, rfl⟩, rfl⟩
    | none => exact .inr ⟨_, rfl, rfl, rfl⟩

/-- An error ends the post when nothing more has gone out. -/
theorem Sends.error (hf : Quiet f f') (hbytes : bytes ≠ []) (message : Text) :
    Sends bytes f (some false, f'.processError message) [] where
  connections := hf.connections
  inOrder := List.nil_prefix
  returns := by rw [decide_eq_false (show ([] : List Octets).flatten ≠ bytes from hbytes.symm)]
  processed := ⟨[message], congrArg (· ++ [message]) hf.processed, (if_neg hbytes.symm).symm⟩

/-- Some bytes have gone out before. -/
theorem Sends.behind {a rest : Octets} {r : Option Bool × Fluent} {pieces : List Octets} (h : Sends rest f' r pieces)
    (hconnections : f'.connections = sent f.connections a) (hprocessed : f'.processed = f.processed) :
    Sends (a ++ rest) f r (glue a pieces) := by
  have hall : (glue a pieces).flatten = a ++ rest ↔ pieces.flatten = rest := by
    rw [flatten_glue, List.append_right_inj]
  obtain ⟨messages, hmessages, hlength⟩ := h.processed
  exact
    { connections := by rw [h.connections, hconnections, extend_sent]
      inOrder := by rw [flatten_glue]; exact (List.prefix_append_right_inj a).mpr h.inOrder
      returns := by rw [h.returns]; simp only [hall]
      processed := ⟨messages, by rw [hmessages, hprocessed], by simp only [hlength, hall]⟩ }

theorem Sends.quiet {r : Option Bool × Fluent} {pieces : List Octets} (h : Sends bytes f' r pieces)
    (hconnections : f'.connections = f.connections) (hprocessed : f'.processed = f.processed) : Sends bytes f r pieces :=
  { h with
    connections := hconnections ▸ h.connections
    processed := hprocessed ▸ h.processed }

/-- The same over a connection that is new. -/
theorem Sends.reconnected {r : Option Bool × Fluent} {pieces : List Octets} (h : Sends bytes f' r pieces)
    (hconnections : f'.connections = f.connections ++ [[]]) (hprocessed : f'.processed = f.processed) :
    ∃ pieces', Sends bytes f r pieces' := by
  have hflatten : (glue [] pieces).flatten = pieces.flatten := flatten_glue [] pieces
  obtain ⟨messages, hmessages, hlength⟩ := h.processed
  by_cases hne : f.connections = []
  · refine ⟨glue [] pieces, ?_, ?_, ?_, messages, ?_, ?_⟩
    · rw [h.connections, hconnections, hne, extend_first]
    · rw [hflatten]
      exact h.inOrder
    · rw [h.returns, hflatten]
    · rw [hmessages, hprocessed]
    · rw [hlength, hflatten]
  · have hflatten' : ([] :: glue [] pieces).flatten = pieces.flatten := hflatten
    refine ⟨[] :: glue [] pieces, ?_, ?_, ?_, messages, ?_, ?_⟩
    · rw [h.connections, hconnections, extend_concat hne]
    · rw [hflatten']
      exact h.inOrder
    · rw [h.returns, hflatten']
    · rw [hmessages, hprocessed]
    · rw [hlength, hflatten']

/-- The induction is on the rounds: each one writes something, or counts as a retry. -/
theorem postLoop_sends (net : Network) (hrounds : packed.length - written + (MAX_WRITE_RETRY + 1 - retry) < rounds)
    (hne : f.connections ≠ []) :
    ∃ pieces, Sends (packed.drop written) f (postLoop net packed rounds written retry f) pieces := by
  induction rounds generalizing written retry f with
  | zero => exact absurd hrounds (Nat.not_lt_zero _)
  | succ rounds ih =>
    rw [postLoop]
    by_cases hwritten : written < packed.length
    · rw [if_pos hwritten]
      have hbuffer : packed.drop written ≠ [] := by
        rw [Ne, List.drop_eq_nil_iff]
        exact Nat.not_le.mpr hwritten
      rcases write_cases net (packed.drop written) f with
        ⟨r, f', heq, hr, hquiet⟩ | ⟨k, f', heq, hk, hprocessed, hconnections⟩
      · rw [heq]
        rcases hr with rfl | rfl
        · exact ⟨[], .error hquiet hbuffer _⟩
        · exact ⟨[], .error hquiet hbuffer _⟩
      · rw [heq]
        cases k with
        | zero =>
          rw [List.take_zero, sent_nil hne] at hconnections
          have hretried : ¬ retry > MAX_WRITE_RETRY →
              packed.length - written + (MAX_WRITE_RETRY + 1 - (retry + 1)) < rounds := by omega
          by_cases hretry : retry > MAX_WRITE_RETRY
          · simp only [if_pos hretry]
            exact ⟨[], .error ⟨hconnections, hprocessed⟩ hbuffer _⟩
          · simp only [if_neg hretry]
            cases hbroken : f'.brokenPipe with
            | false =>
              have hne' : f'.connections ≠ [] := hconnections ▸ hne
              obtain ⟨pieces, hpieces⟩ := ih (hretried hretry) hne'
              exact ⟨pieces, hpieces.quiet hconnections hprocessed⟩
            | true =>
              -- the socket is closed, and opened anew if it can be
              rcases reconnect_cases net f'.close with
                ⟨hopen, -⟩ | ⟨-, ⟨message, f'', hfails, hquiet, -⟩ | ⟨f'', hopens, hsame, hnew⟩⟩
              · cases hopen
              · simp only [if_true, hfails]
                have hquiet' : Quiet f f'' := ⟨hquiet.connections.trans hconnections, hquiet.processed.trans hprocessed⟩
                exact ⟨[], .error hquiet' hbuffer _⟩
              · simp only [if_true, hopens]
                have hne' : f''.connections ≠ [] := hnew ▸ List.append_ne_nil_of_right_ne_nil _ (List.cons_ne_nil _ _)
                obtain ⟨pieces, hpieces⟩ := ih (hretried hretry) hne'
                exact hpieces.reconnected (hnew.trans (congrArg (· ++ [[]]) hconnections)) (hsame.trans hprocessed)
        | succ k =>
          -- so many bytes more
          have hne' : f'.connections ≠ [] := hconnections ▸ sent_ne_nil _ _
          have hlength : k + 1 ≤ packed.length - written := by rwa [List.length_drop] at hk
          obtain ⟨pieces, hpieces⟩ := ih (show packed.length - (written + (k + 1)) + (MAX_WRITE_RETRY + 1 - retry) < rounds by omega) hne'
          have hdrop : packed.drop written =
              (packed.drop written).take (k + 1) ++ packed.drop (written + (k + 1)) := by
            rw [← List.drop_drop, List.take_append_drop]
          rw [hdrop]
          exact ⟨_, hpieces.behind hconnections hprocessed⟩
    · rw [if_neg hwritten, List.drop_eq_nil_of_le (Nat.not_lt.mp hwritten)]
      exact ⟨[], rfl, List.prefix_rfl, rfl, [], (List.append_nil _).symm, rfl⟩

theorem extend_ne_nil {connections pieces : List Octets} (hne : connections ≠ []) : extend connections pieces ≠ [] := by
  cases pieces with
  | nil => exact hne
  | cons p ps => exact List.append_ne_nil_of_left_ne_nil (sent_ne_nil connections p) ps

/-- A socket has its connection. -/
def Wired (f : Fluent) : Prop := f.connected = true → f.connections ≠ []

theorem post_sends (net : Network) (hpacked : packed ≠ []) (hf : f.Wired) :
    (∃ pieces, Sends packed f (f.post net packed) pieces) ∧ (f.post net packed).2.Wired := by
  have hrounds : packed.length - 0 + (MAX_WRITE_RETRY + 1 - 0) < enoughRounds packed := by
    rw [enoughRounds]
    omega
  rw [post]
  rcases reconnect_cases net f with
    ⟨hconnected, hsame⟩ | ⟨-, ⟨message, f', hfails, hquiet, hclosed⟩ | ⟨f', hopens, hprocessed, hnew⟩⟩
  · rw [hsame]
    obtain ⟨pieces, hpieces⟩ := postLoop_sends net hrounds (hf hconnected)
    exact ⟨⟨pieces, hpieces⟩, fun _ => hpieces.connections ▸ extend_ne_nil (hf hconnected)⟩
  · rw [hfails]
    exact ⟨⟨[], .error hquiet hpacked message⟩, fun hopen => absurd (hclosed.symm.trans hopen) Bool.false_ne_true⟩
  · rw [hopens]
    have hne : f'.connections ≠ [] := hnew ▸ List.append_ne_nil_of_right_ne_nil _ (List.cons_ne_nil _ _)
    obtain ⟨pieces, hpieces⟩ := postLoop_sends net hrounds hne
    exact ⟨hpieces.reconnected hnew hprocessed, fun _ => hpieces.connections ▸ extend_ne_nil hne⟩

end

/-! The other side. -/

open Framing

/-- The logger after a post. -/
def posted (net : Network) (f : Fluent) (packed : Octets) : Fluent := (f.post net packed).2

/-- The messages whose posts have returned true. -/
def acknowledged (net : Network) : Fluent → List Octets → List Octets
  | _, [] => []
  | f, m :: ms => (if (f.post net m).1 = some true then [m] else []) ++ acknowledged net (f.posted net m) ms

/-- What is read at the other end of the connections, by a reader that knows from a message's bytes
    where it ends. -/
def received (done : Octets → Bool) (f : Fluent) : List Octets := f.connections.flatMap fun s => (cut done [] s).1

/-- No connection stands in the middle of a message. -/
def AtBoundary (done : Octets → Bool) (f : Fluent) : Prop := ∀ s ∈ f.connections, (cut done [] s).2 = []

/-- The message has gone over a connection as a whole, if any of it has gone out. -/
def Whole (net : Network) (f : Fluent) (m : Octets) : Prop :=
  ∃ pieces, (f.posted net m).connections = extend f.connections pieces ∧ ∀ p ∈ pieces, p = [] ∨ p = m

section
variable {net : Network} {done : Octets → Bool} {m : Octets} {connections pieces : List Octets} {f : Fluent}

/-- Of the parts of a message, those that leave the reader between two messages are nothing or all of it. -/
theorem whole_parts (hm : IsPiece done m) (hparts : pieces.flatten <+: m) :
    (∀ p ∈ pieces, (cut done [] p).2 = []) ↔ ∀ p ∈ pieces, p = [] ∨ p = m := by
  constructor
  · induction pieces with
    | nil => exact fun _ p hp => absurd hp List.not_mem_nil
    | cons p pieces ih =>
      intro hends
      obtain ⟨hp, hends⟩ := List.forall_mem_cons.mp hends
      rw [List.flatten_cons] at hparts
      have hstart : p <+: m := (List.prefix_append _ _).trans hparts
      by_cases hwhole : p = m
      · -- nothing is left for the others
        have hnone : pieces.flatten = [] := by
          rw [hwhole] at hparts
          exact List.append_right_eq_self.mp (hparts.eq_of_length_le (List.prefix_append _ _).length_le)
        refine List.forall_mem_cons.mpr ⟨.inr hwhole, fun q hq => .inl ?_⟩
        exact List.flatten_eq_nil_iff.mp hnone q hq
      · have hopen : cut done [] p = ([], p) := cut_open (hm.open_of_prefix hstart hwhole)
        rw [hopen] at hp
        have hp : p = [] := hp
        rw [hp, List.nil_append] at hparts
        exact List.forall_mem_cons.mpr ⟨.inl hp, ih hparts hends⟩
  · intro hwhole p hp
    rcases hwhole p hp with rfl | rfl
    · rfl
    · have hcut : cut done [] p = ([p], []) := cut_piece hm hm.ne_nil
      rw [hcut]

theorem read_parts (hm : IsPiece done m) (hparts : pieces.flatten <+: m) (hwhole : ∀ p ∈ pieces, p = [] ∨ p = m) :
    (pieces.flatMap fun p => (cut done [] p).1) = if pieces.flatten = m then [m] else [] := by
  have hcut : cut done [] m = ([m], []) := cut_piece hm hm.ne_nil
  induction pieces with
  | nil =>
    rw [if_neg (show ([] : List Octets).flatten ≠ m from hm.ne_nil.symm)]
    rfl
  | cons p pieces ih =>
    obtain ⟨hp, hothers⟩ := List.forall_mem_cons.mp hwhole
    rw [List.flatten_cons] at hparts ⊢
    rw [List.flatMap_cons]
    rcases hp with rfl | rfl
    · rw [List.nil_append] at hparts ⊢
      exact ih hparts hothers
    · have hnone : pieces.flatten = [] :=
        List.append_right_eq_self.mp (hparts.eq_of_length_le (List.prefix_append _ _).length_le)
      rw [hnone, List.append_nil, if_pos rfl, hcut]
      rw [hnone] at ih
      rw [ih List.nil_prefix hothers, if_neg hm.ne_nil.symm]
      rfl

/-- The newest connection goes on where it was. -/
theorem newest_boundary (hends : ∀ s ∈ connections, (cut done [] s).2 = []) :
    (cut done [] (connections.getLastD [])).2 = [] := by
  by_cases hne : connections = []
  · rw [hne]
    rfl
  · rw [List.getLastD_eq_getLast?, List.getLast?_eq_some_getLast hne]
    exact hends _ (List.getLast_mem hne)

theorem boundary_extend (hends : ∀ s ∈ connections, (cut done [] s).2 = []) :
    (∀ s ∈ extend connections pieces, (cut done [] s).2 = []) ↔ ∀ p ∈ pieces, (cut done [] p).2 = [] := by
  cases pieces with
  | nil => exact ⟨fun _ p hp => absurd hp List.not_mem_nil, fun _ => hends⟩
  | cons p ps =>
    have hlast : (cut done [] (connections.getLastD [] ++ p)).2 = (cut done [] p).2 := by
      rw [cut_append, newest_boundary hends]
    have hearlier : ∀ s ∈ connections.dropLast, (cut done [] s).2 = [] := fun s hs => hends s (List.mem_of_mem_dropLast hs)
    rw [extend, sent, List.forall_mem_append, List.forall_mem_append, List.forall_mem_singleton, hlast,
      List.forall_mem_cons]
    exact ⟨fun h => ⟨h.1.2, h.2⟩, fun h => ⟨⟨hearlier, h.1⟩, h.2⟩⟩

theorem received_extend (hends : ∀ s ∈ connections, (cut done [] s).2 = []) :
    ((extend connections pieces).flatMap fun s => (cut done [] s).1) =
      (connections.flatMap fun s => (cut done [] s).1) ++ pieces.flatMap fun p => (cut done [] p).1 := by
  cases pieces with
  | nil => exact (List.append_nil _).symm
  | cons p ps =>
    have hlast : (cut done [] (connections.getLastD [] ++ p)).1 =
        (cut done [] (connections.getLastD [])).1 ++ (cut done [] p).1 := by
      rw [cut_append, newest_boundary hends]
    have hsplit : (connections.flatMap fun s => (cut done [] s).1) =
        (connections.dropLast.flatMap fun s => (cut done [] s).1) ++ (cut done [] (connections.getLastD [])).1 := by
      by_cases hne : connections = []
      · rw [hne]
        rfl
      · conv_lhs => rw [← List.dropLast_concat_getLast hne]
        rw [List.flatMap_append, List.flatMap_singleton, List.getLastD_eq_getLast?,
          List.getLast?_eq_some_getLast hne, Option.getD_some]
    rw [extend, sent, List.flatMap_append, List.flatMap_append, List.flatMap_singleton, hlast, hsplit, List.flatMap_cons]
    simp only [List.append_assoc]

/-- After a post no connection stands in the middle of a message exactly if the message has stayed whole; and
    then it is read if the post has returned true. -/
theorem post_boundary (net : Network) (hm : IsPiece done m) (hf : f.Wired) (hends : f.AtBoundary done) :
    ((f.posted net m).AtBoundary done ↔ Whole net f m) ∧
      (Whole net f m → (f.posted net m).received done =
        f.received done ++ if (f.post net m).1 = some true then [m] else []) := by
  obtain ⟨⟨pieces, hpieces⟩, -⟩ := post_sends net hm.ne_nil hf
  have hconnections : (f.posted net m).connections = extend f.connections pieces := hpieces.connections
  have hboundary : (f.posted net m).AtBoundary done ↔ ∀ p ∈ pieces, p = [] ∨ p = m := by
    rw [AtBoundary, hconnections, boundary_extend hends, whole_parts hm hpieces.inOrder]
  have hiff : (f.posted net m).AtBoundary done ↔ Whole net f m := by
    rw [hboundary]
    refine ⟨fun hwhole => ⟨pieces, hconnections, hwhole⟩, fun hwhole => ?_⟩
    obtain ⟨pieces', hconnections', hwhole'⟩ := hwhole
    rw [← hboundary, AtBoundary, hconnections', boundary_extend hends]
    intro p hp
    rcases hwhole' p hp with rfl | rfl
    · rfl
    · have hcut : cut done [] p = ([p], []) := cut_piece hm hm.ne_nil
      rw [hcut]
  refine ⟨hiff, fun hwhole => ?_⟩
  have hparts := hboundary.mp (hiff.mpr hwhole)
  rw [received, hconnections, received_extend hends, read_parts hm hpieces.inOrder hparts, hpieces.returns]
  simp only [Option.some.injEq, decide_eq_true_eq]
  rfl

theorem wired_run {messages : List Octets} (hmessages : ∀ m ∈ messages, m ≠ []) (hf : f.Wired) :
    (run (posted net) f messages).Wired := by
  induction messages generalizing f with
  | nil => exact hf
  | cons m messages ih =>
    obtain ⟨hm, hothers⟩ := List.forall_mem_cons.mp hmessages
    exact ih hothers (post_sends net hm hf).2

/-- At every point of a run the reader stands between two messages exactly if each message has stayed whole. -/
theorem boundaries_iff {messages : List Octets} (hmessages : ∀ m ∈ messages, IsPiece done m) (hf : f.Wired)
    (hends : f.AtBoundary done) :
    (∀ pre, pre <+: messages → (run (posted net) f pre).AtBoundary done) ↔ AtEach (posted net) (Whole net) f messages := by
  have hstep : ∀ f m, Wired f ∧ f.AtBoundary done → IsPiece done m →
      ((f.posted net m).Wired ∧ (f.posted net m).AtBoundary done ↔ Whole net f m) := by
    rintro f m ⟨hf, hends⟩ hm
    obtain ⟨hboundary, -⟩ := post_boundary net hm hf hends
    exact ⟨fun h => hboundary.mp h.2, fun hwhole => ⟨(post_sends net hm.ne_nil hf).2, hboundary.mpr hwhole⟩⟩
  have hpieces : AtEach (posted net) (fun _ m => IsPiece done m) f messages := by
    rw [atEach_iff_split]
    rintro pre m post rfl
    exact hmessages m (List.mem_append_right _ (List.mem_cons_self ..))
  rw [← inv_prefixes_iff hstep ⟨hf, hends⟩ hpieces]
  refine forall₂_congr fun pre hpre => ⟨fun h => ⟨wired_run (fun m hm => ?_) hf, h⟩, fun h => h.2⟩
  exact (hmessages m (hpre.subset hm)).ne_nil

/-- Messages that stay whole are read if their posts return true, each once and in order. -/
theorem received_run {messages : List Octets} (hmessages : ∀ m ∈ messages, IsPiece done m) (hf : f.Wired)
    (hends : f.AtBoundary done) (hwhole : AtEach (posted net) (Whole net) f messages) :
    (run (posted net) f messages).received done = f.received done ++ f.acknowledged net messages := by
  induction messages generalizing f with
  | nil => exact (List.append_nil _).symm
  | cons m messages ih =>
    obtain ⟨hm, hothers⟩ := List.forall_mem_cons.mp hmessages
    obtain ⟨hboundary, hreads⟩ := post_boundary net hm hf hends
    have hwired : (f.posted net m).Wired := (post_sends net hm.ne_nil hf).2
    rw [run_cons, ih hothers hwired (hboundary.mpr hwhole.1) hwhole.2, hreads hwhole.1,
      acknowledged, List.append_assoc]

end

theorem wired_new : Wired {} := fun hconnected => absurd hconnected Bool.false_ne_true

/-- Whatever a new logger has posted before and whatever the network answers, a post sends a prefix
    of its message, in order, over the connection it finds and over those it opens. It returns true
    exactly if that is all of it, and processes one error exactly if it is not. -/
theorem post_spec (net : Network) (earlier : List Octets) (packed : Octets) (hearlier : ∀ m ∈ earlier, m ≠ [])
    (hpacked : packed ≠ []) :
    ∃ pieces, Sends packed (run (posted net) {} earlier) ((run (posted net) {} earlier).post net packed) pieces :=
  (post_sends net hpacked (wired_run hearlier wired_new)).1

/-- The first message goes out. The pipe breaks under the second one after a byte, it goes on over a new connection,
    and there the write fails. -/
theorem post_spec_breaks :
    let net : Network :=
      { fwrite := fun k => if k = 1 then ⟨.took 2, none⟩ else if k = 2 then ⟨.took 1, none⟩ else
          if k = 3 then ⟨.took 0, some (chars "errno=32 Broken pipe")⟩ else if k = 5 then ⟨.took 1, none⟩ else ⟨.failed, none⟩
        connect := fun _ => none }
    let f := run (posted net) {} [[91, 93]]
    (f.post net [91, 49, 93]).2.connections = [[91, 93, 91], [49]] ∧
      ∃ pieces, Sends [91, 49, 93] f (f.post net [91, 49, 93]) pieces :=
  ⟨by with_unfolding_all decide, post_spec _ [[91, 93]] [91, 49, 93] (by decide) (by decide)⟩

/-- Messages posted one after the other by a new logger, to a reader that knows from a message's
    bytes where it ends: at every point it stands between two messages exactly if each of them
    has stayed whole, and then it has read those whose posts returned true, each once and in order. -/
theorem receives_iff (net : Network) (done : Octets → Bool) (messages : List Octets)
    (hmessages : ∀ m ∈ messages, IsPiece done m) :
    ((∀ pre, pre <+: messages → (run (posted net) {} pre).AtBoundary done) ↔
        AtEach (posted net) (Whole net) {} messages) ∧
      (AtEach (posted net) (Whole net) {} messages →
        (run (posted net) {} messages).received done = acknowledged net {} messages) := by
  have hends : AtBoundary done {} := fun s hs => absurd hs List.not_mem_nil
  exact ⟨boundaries_iff hmessages wired_new hends, received_run hmessages wired_new hends⟩

/-- Two messages that end with a `]`. The network takes three bytes of the first one and fails, and the
    second one goes on behind them. -/
theorem receives_iff_fails :
    let net : Network :=
      { fwrite := fun k => if k = 1 then ⟨.took 3, none⟩ else if k = 2 then ⟨.failed, none⟩ else ⟨.took 9, none⟩
        connect := fun _ => none }
    let messages : List Octets := [[91, 49, 50, 51, 93], [91, 93]]
    (run (posted net) {} messages).connections = [[91, 49, 50, 91, 93]] ∧ ¬ AtEach (posted net) (Whole net) {} messages := by
  intro net messages
  let done : Octets → Bool := fun s => s.getLast? = some 93
  have hpiece : ∀ m, m ∈ (cut done [] m).1 → IsPiece done m := fun m hm => (cut_spec open_nil m).1 m hm
  have hmessages : ∀ m ∈ messages, IsPiece done m :=
    List.forall_mem_cons.mpr ⟨hpiece _ (by decide), List.forall_mem_singleton.mpr (hpiece _ (by decide))⟩
  refine ⟨by decide, fun hwhole => ?_⟩
  have hboundary := (receives_iff net done messages hmessages).1.mpr hwhole [[91, 49, 50, 51, 93]] (by decide)
  exact absurd hboundary (by unfold AtBoundary; decide)

end Fluent

end RubbishStore.Util
