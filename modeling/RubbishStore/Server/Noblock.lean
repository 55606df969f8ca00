import RubbishStore.Lib.Runs
import Mathlib.Data.List.Infix

/- The non-blocking PHP server. A round takes a connection from the listening queue,
   and where there is one it accepts a second time and goes on with what that gives:
   the second connection takes the place of the first in `$msgsock`, whose socket is
   then released, and with nothing left in the queue the server dies. Connections
   are numbered in the order of their arrival; they arrive at any time, so a round
   has those that come before its first accept and those that come after it. -/
namespace RubbishStore.Server
open RubbishStore.Lib

/-- What is done with a connection. It is `released` when no variable holds its
    socket any more, or when the process ends. -/
inductive Event where
  | accepted (conn : Nat)
  | received (conn : Nat) (buf : Option String)
  | sent (conn : Nat) (msg : String)
  | closed (conn : Nat)
  | released (conn : Nat)
  deriving DecidableEq, Repr

def Event.conn : Event → Nat
  | .accepted c => c
  | .received c _ => c
  | .sent c _ => c
  | .closed c => c
  | .released c => c

structure Noblock where
  /-- The connections that are pending on `$sock`. -/
  queue : List Nat := []
  /-- The number of the next connection to arrive. -/
  next : Nat := 0
  /-- The open socket that `$msgsock` holds. -/
  msgsock : Option Nat := none
  log : List Event := []
  stopped : Bool := false
  deriving DecidableEq, Repr

/-- What a round meets: arrivals before and after its first accept, what
    `socket_read` gives, and whether `socket_write` succeeds. -/
structure Round where
  early : Nat := 0
  late : Nat := 0
  buf : Option String := none
  written : Bool := true
  deriving DecidableEq, Repr

namespace Noblock

def arrive (s : Noblock) (n : Nat) : Noblock :=
  { s with queue := s.queue ++ List.range' s.next n, next := s.next + n }

def emit (s : Noblock) (e : Event) : Noblock := { s with log := s.log ++ [e] }

/-- `socket_accept($sock)`, which is false when nothing is pending. -/
def socketAccept (s : Noblock) : Option Nat × Noblock :=
  match s.queue with
  | [] => (none, s)
  | c :: queue => (some c, { s with queue := queue }.emit (.accepted c))

/-- `$msgsock = m`; the socket it held is released. -/
def assign (s : Noblock) (m : Option Nat) : Noblock :=
  { s with msgsock := m, log := s.log ++ s.msgsock.toList.map Event.released }

/-- `die` -/
def die (s : Noblock) : Noblock := { s.assign none with stopped := true }

/-- Read, answer and close. -/
def serve (s : Noblock) (c : Nat) (r : Round) : Noblock :=
  let s := s.emit (.received c r.buf)
  if r.written then
    let s := s.emit (.sent c "welcome \n")
    { s with msgsock := none }.emit (.closed c)
  else s.die

/-- The second accept of a round, and the rest of it. -/
def acceptAgain (s : Noblock) (r : Round) : Noblock :=
  let (m, s) := s.socketAccept
  let s := s.assign m
  match m with
  | none => s.die
  | some c => s.serve c r

/-- A round of the main loop. -/
def round (s : Noblock) (r : Round) : Noblock :=
  if s.stopped then s
  else
    let (m, s) := (s.arrive r.early).socketAccept
    let s := (s.assign m).arrive r.late
    match m with
    | none => s
    | some _ => s.acceptAgain r

/-- Each connection taken from the queue has been read from, answered and closed,
    once each, and the server goes on. -/
structure Serves (s : Noblock) : Prop where
  going : s.stopped = false
  answered : ∀ c, .accepted c ∈ s.log → ∃ buf, s.log.filter (fun e => e.conn = c) =
    [.accepted c, .received c buf, .sent c "welcome \n", .closed c]

/-! The log only grows. -/

theorem emit_log (s : Noblock) (e : Event) : s.log <+: (s.emit e).log := List.prefix_append _ _

theorem assign_log (s : Noblock) (m : Option Nat) : s.log <+: (s.assign m).log :=
  List.prefix_append _ _

theorem serve_log (s : Noblock) (c : Nat) (r : Round) : s.log <+: (s.serve c r).log := by
  rw [serve]
  split
  · exact ((emit_log _ _).trans (emit_log _ _)).trans (emit_log _ _)
  · exact (emit_log _ _).trans (assign_log _ none)

theorem round_stopped {s : Noblock} (h : s.stopped = true) (r : Round) : s.round r = s := if_pos h

/-- A round whose first accept finds nothing. -/
theorem round_idle {s : Noblock} {r : Round} (hgoing : s.stopped = false) (hqueue : s.queue = [])
    (hearly : r.early = 0) : s.round r = (s.assign none).arrive r.late := by
  have harrive : s.arrive r.early = s := by
    rw [arrive, hearly, List.range'_zero, List.append_nil]
    rfl
  simp only [round, hgoing, Bool.false_eq_true, if_false, harrive, socketAccept, hqueue]

/-- While `$msgsock` holds the connection `c`, the assignment of what the second
    accept gives releases the socket of `c`. -/
theorem acceptAgain_log {s : Noblock} {c : Nat} (h : s.msgsock = some c) (r : Round) :
    ∃ before after, (s.acceptAgain r).log = s.log ++ before ++ [.released c] ++ after := by
  rw [acceptAgain, socketAccept]
  cases hqueue : s.queue with
  | nil => exact ⟨[], [], by simp [die, assign, h]⟩
  | cons c' queue =>
    -- the second connection is accepted before it takes the place of the first
    obtain ⟨after, hafter⟩ :=
      serve_log (({ s with queue := queue }.emit (.accepted c')).assign (some c')) c' r
    refine ⟨[.accepted c'], after, ?_⟩
    dsimp only
    rw [← hafter]
    simp [assign, emit, h]

/-- A round whose first accept takes the connection `c` releases it. -/
theorem round_taken {s : Noblock} {r : Round} {c : Nat} {queue : List Nat}
    (hgoing : s.stopped = false) (hqueue : (s.arrive r.early).queue = c :: queue) :
    ∃ before after, (s.round r).log = s.log ++ [.accepted c] ++ before ++ [.released c] ++ after := by
  let t : Noblock :=
    (({ s.arrive r.early with queue := queue }.emit (.accepted c)).assign (some c)).arrive r.late
  have hround : s.round r = t.acceptAgain r := by
    simp only [round, hgoing, Bool.false_eq_true, if_false, socketAccept, hqueue, t]
  obtain ⟨before, after, hlog⟩ := acceptAgain_log (s := t) (c := c) rfl r
  refine ⟨s.msgsock.toList.map Event.released ++ before, after, ?_⟩
  rw [hround, hlog]
  simp [t, arrive, assign, emit]

theorem round_log (s : Noblock) (r : Round) : s.log <+: (s.round r).log := by
  cases hgoing : s.stopped with
  | true =>
    rw [round_stopped hgoing]
  | false =>
    cases hqueue : (s.arrive r.early).queue with
    | nil =>
      rw [arrive, List.append_eq_nil_iff, List.range'_eq_nil_iff] at hqueue
      rw [round_idle hgoing hqueue.1 hqueue.2]
      exact assign_log s none
    | cons c queue =>
      obtain ⟨before, after, hlog⟩ := round_taken hgoing hqueue
      rw [hlog]
      simp only [List.append_assoc]
      exact List.prefix_append _ _

/-- A run that has stopped, or has released a connection it took, cannot be mended. -/
def Failed (s : Noblock) : Prop :=
  s.stopped = true ∨ ∃ c, .accepted c ∈ s.log ∧ .released c ∈ s.log

theorem Failed.not_serves {s : Noblock} (h : Failed s) : ¬ Serves s := by
  intro hs
  obtain hstopped | ⟨c, haccepted, hreleased⟩ := h
  · rw [hs.going] at hstopped
    cases hstopped
  · obtain ⟨buf, hevents⟩ := hs.answered c haccepted
    have hmem : Event.released c ∈ s.log.filter (fun e => e.conn = c) :=
      List.mem_filter.mpr ⟨hreleased, by simp [Event.conn]⟩
    rw [hevents] at hmem
    simp at hmem

theorem Failed.round {s : Noblock} (h : Failed s) (r : Round) : Failed (s.round r) := by
  obtain hstopped | ⟨c, haccepted, hreleased⟩ := h
  · rw [round_stopped hstopped]
    exact .inl hstopped
  · have hlog := (round_log s r).subset
    exact .inr ⟨c, hlog haccepted, hlog hreleased⟩

theorem Failed.run {s : Noblock} (h : Failed s) (rounds : List Round) :
    Failed (run Noblock.round s rounds) :=
  run_inv h atEach_true fun _ r hs _ => hs.round r

/-- The first accept of the round finds no connection. -/
def NonePending (s : Noblock) (r : Round) : Prop := s.queue.length + r.early = 0

instance (s : Noblock) (r : Round) : Decidable (NonePending s r) :=
  inferInstanceAs (Decidable (_ = _))

theorem round_fails {s : Noblock} {r : Round} (h : ¬ NonePending s r) : Failed (s.round r) := by
  cases hgoing : s.stopped with
  | true => exact .inl (by rw [round_stopped hgoing, hgoing])
  | false =>
    cases hqueue : (s.arrive r.early).queue with
    | nil =>
      have hlength := congrArg List.length hqueue
      simp only [arrive, List.length_append, List.length_range', List.length_nil] at hlength
      exact absurd hlength h
    | cons c queue =>
      obtain ⟨before, after, hlog⟩ := round_taken hgoing hqueue
      exact .inr ⟨c, by simp [hlog], by simp [hlog]⟩

/-- Nothing has been accepted so far. -/
structure Untouched (s : Noblock) : Prop where
  going : s.stopped = false
  msgsock : s.msgsock = none
  log : s.log = []

theorem Untouched.round {s : Noblock} {r : Round} (h : Untouched s) (hnone : NonePending s r) :
    Untouched (s.round r) := by
  rw [NonePending, Nat.add_eq_zero_iff, List.length_eq_zero_iff] at hnone
  rw [round_idle h.going hnone.1 hnone.2]
  refine ⟨h.going, rfl, ?_⟩
  simp [arrive, assign, h.log, h.msgsock]

/-- In a run of rounds the server serves all the connections it takes if and only if
    it takes none: no first accept of a round finds a connection pending. -/
theorem serves_iff_none_pending (rounds : List Round) :
    Serves (run round {} rounds) ↔ AtEach round NonePending {} rounds := by
  refine ⟨fun h => ?_, fun h => ?_⟩
  · rw [atEach_iff_split]
    rintro before r after rfl
    by_contra hpending
    -- what this round breaks, the rounds after it do not mend
    have hfailed := (round_fails hpending).run after
    rw [run_append, run_cons] at h
    exact hfailed.not_serves h
  · have hstart : Untouched {} := ⟨rfl, rfl, rfl⟩
    have hend := run_inv hstart h fun s r hs hnone => hs.round hnone
    refine ⟨hend.going, fun c hc => ?_⟩
    rw [hend.log] at hc
    cases hc

/-- One client alone: its connection is dropped and the server dies. Two at once: the
    first is dropped and the second is answered. -/
theorem first_connection_dropped :
    (run round {} [{ early := 1 }]).log = [.accepted 0, .released 0] ∧
    (run round {} [{ early := 1 }]).stopped = true ∧
    (run round {} [{ early := 2, buf := some "hello socket" }]).log =
      [.accepted 0, .accepted 1, .released 0, .received 1 (some "hello socket"),
        .sent 1 "welcome \n", .closed 1] := by
  decide

end Noblock

end RubbishStore.Server
