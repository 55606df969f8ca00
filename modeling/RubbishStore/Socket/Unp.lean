import Mathlib.Data.Finset.Card
import Mathlib.Data.Int.Order.Basic
import Mathlib.Data.List.TakeWhile
import RubbishStore.Lib.Outcome

/- The wrappers of `unpv13e/lib` that the programs below use. A wrapper makes a
   call and ends the process when the call fails. What the calls answer is the
   `Kernel`'s choice, by the number of calls made so far; `Sys` is what the kernel
   keeps of the process, with the calls made so far in order. A call on a
   descriptor that is not open fails, and is in the trace all the same. -/
namespace RubbishStore.Socket
open RubbishStore.Lib

abbrev Bytes : Type := List UInt8

abbrev Fd : Type := Int

/-- `fileno(stdout)` -/
def stdoutFd : Fd := 1

/-- `#define MAXLINE 4096` -/
def MAXLINE : Nat := 4096

/-- A call of the process, with what went over the descriptor. The three macros
    on an `fd_set` count as calls, and so do `printf` and `http_parser_execute`. -/
inductive Op where
  | select
  | accept (fd : Fd)
  | read (fd : Fd) (bytes : Bytes)
  | write (fd : Fd) (bytes : Bytes)
  | close (fd : Fd)
  | shutdown (fd : Fd)
  | fdSet (fd : Fd)
  | fdClr (fd : Fd)
  | fdIsset (fd : Fd)
  | printf (text : Bytes)
  | parse (text : Option Bytes)
  deriving DecidableEq, Repr

structure Sys where
  opened : Finset Fd
  trace : List Op := []

/-- How the process has ended: with the message of `err_quit` or `err_sys`, or by
    returning (no message). -/
structure Exit where
  message : Option String
  sys : Sys

/-- What the calls answer, call by call. -/
structure Kernel where
  /-- the descriptors that can be read without blocking, unless `select` fails -/
  select : Nat → Option (Fd → Bool)
  /-- a descriptor that was not open, unless `accept` fails -/
  accept : Nat → Finset Fd → Option Fd
  accept_new : ∀ k opened fd, accept k opened = some fd → 0 ≤ fd ∧ fd ∉ opened
  /-- the bytes read (none at end of file), unless `read` fails -/
  read : Nat → Option Bytes
  /-- how many bytes can be written -/
  written : Nat → Nat
  /-- whether `shutdown` succeeds -/
  shutdown : Nat → Bool

/-- The least descriptor that is not open. -/
def lowestUnused (opened : Finset Fd) : Fd :=
  Int.ofNat (((List.range (opened.card + 1)).find? fun d => Int.ofNat d ∉ opened).getD 0)

theorem lowestUnused_spec (opened : Finset Fd) :
    0 ≤ lowestUnused opened ∧ lowestUnused opened ∉ opened ∧
      ∀ d, 0 ≤ d → d < lowestUnused opened → d ∈ opened := by
  rw [lowestUnused]
  cases hfind : (List.range (opened.card + 1)).find? fun d => decide (Int.ofNat d ∉ opened) with
  | none =>
    -- there are more numbers than open descriptors
    have hall : (Finset.range (opened.card + 1)).image Int.ofNat ⊆ opened := by
      intro fd hfd
      obtain ⟨d, hd, rfl⟩ := Finset.mem_image.mp hfd
      have hopen := List.find?_eq_none.mp hfind d (List.mem_range.mpr (Finset.mem_range.mp hd))
      simpa using hopen
    have hcard := Finset.card_le_card hall
    rw [Finset.card_image_of_injective _ fun _ _ => Int.ofNat.inj, Finset.card_range] at hcard
    omega
  | some d =>
    obtain ⟨hunused, -, hbefore⟩ := List.find?_range_eq_some.mp hfind
    refine ⟨Int.natCast_nonneg d, by simpa using hunused, ?_⟩
    intro d' hnonneg hlt
    obtain ⟨k, rfl⟩ := Int.eq_ofNat_of_zero_le hnonneg
    simpa using hbefore k (Int.ofNat_lt.mp hlt)

/-- Every call succeeds: what is ready and what is read is given, and `accept` takes
    the least descriptor that is not open. -/
def Kernel.scripted (ready : Nat → Fd → Bool) (data : Nat → Bytes) : Kernel where
  select k := some (ready k)
  accept _ opened := some (lowestUnused opened)
  accept_new _ opened fd h := by
    obtain rfl := Option.some.inj h
    exact ⟨(lowestUnused_spec opened).1, (lowestUnused_spec opened).2.1⟩
  read k := some (data k)
  written _ := MAXLINE
  shutdown _ := true

namespace Sys

/-- A call is made. -/
def call (sys : Sys) (op : Op) : Sys := { sys with trace := sys.trace ++ [op] }

@[simp] theorem trace_call (sys : Sys) (op : Op) : (sys.call op).trace = sys.trace ++ [op] := rfl

end Sys

/-! The macros. -/

def fdSet (sys : Sys) (fd : Fd) (set : Finset Fd) : Finset Fd × Sys :=
  (insert fd set, sys.call (.fdSet fd))

def fdClr (sys : Sys) (fd : Fd) (set : Finset Fd) : Finset Fd × Sys :=
  (set.erase fd, sys.call (.fdClr fd))

def fdIsset (sys : Sys) (fd : Fd) (set : Finset Fd) : Bool × Sys :=
  (decide (fd ∈ set), sys.call (.fdIsset fd))

/-! The wrappers. -/

variable (K : Kernel) (sys : Sys)

/-- `select` keeps the ready descriptors of the set below `nfds`; their number is
    what it returns. -/
def select (nfds : Int) (set : Finset Fd) : Except Exit (Finset Fd × Sys) :=
  match K.select sys.trace.length with
  | none => .error ⟨some "select error", sys⟩
  | some ready => .ok (set.filter fun fd => fd < nfds ∧ ready fd = true, sys.call .select)

def accept : Except Exit (Fd × Sys) :=
  match K.accept sys.trace.length sys.opened with
  | none => .error ⟨some "accept error", sys⟩
  | some fd => .ok (fd, { opened := insert fd sys.opened, trace := sys.trace ++ [.accept fd] })

/-- `Read(fd, buf, MAXLINE)` -/
def read (fd : Fd) : Except Exit (Bytes × Sys) :=
  if fd ∈ sys.opened then
    match K.read sys.trace.length with
    | none => .error ⟨some "read error", sys⟩
    | some bytes => .ok (bytes.take MAXLINE, sys.call (.read fd (bytes.take MAXLINE)))
  else .error ⟨some "read error", sys.call (.read fd [])⟩

/-- The bytes are written, or as many as can be. -/
def send (message : String) (fd : Fd) (bytes : Bytes) : Except Exit Sys :=
  if fd ∈ sys.opened then
    let sys' := sys.call (.write fd (bytes.take (K.written sys.trace.length)))
    if bytes.length ≤ K.written sys.trace.length then .ok sys'
    else .error ⟨some message, sys'⟩
  else .error ⟨some message, sys.call (.write fd [])⟩

def write (fd : Fd) (bytes : Bytes) : Except Exit Sys := send K sys "write error" fd bytes

/-- `Writen`: its loop makes no call when there is nothing to write. -/
def writen (fd : Fd) (bytes : Bytes) : Except Exit Sys :=
  if bytes = [] then .ok sys else send K sys "writen error" fd bytes

def close (fd : Fd) : Except Exit Sys :=
  if fd ∈ sys.opened then .ok { opened := sys.opened.erase fd, trace := sys.trace ++ [.close fd] }
  else .error ⟨some "close error", sys.call (.close fd)⟩

/-- `Shutdown(fd, SHUT_WR)` -/
def shutdown (fd : Fd) : Except Exit Sys :=
  if K.shutdown sys.trace.length then .ok (sys.call (.shutdown fd))
  else .error ⟨some "shutdown error", sys.call (.shutdown fd)⟩

/-- What reading `bytes` leaves in a buffer. -/
def overwrite (buf bytes : Bytes) : Bytes := bytes ++ buf.drop bytes.length

/-- The string that a buffer holds: up to its first NUL. -/
def cstring (buf : Bytes) : Bytes := buf.takeWhile (· ≠ 0)

/-- The string is `bytes`, and ends in the buffer, exactly if a NUL follows them and
    none is among them. -/
theorem cstring_append_iff (bytes rest : Bytes) :
    0 ∈ bytes ++ rest ∧ cstring (bytes ++ rest) = bytes ↔ 0 ∉ bytes ∧ rest.head? = some 0 := by
  have hplain : 0 ∉ bytes → cstring (bytes ++ rest) = bytes ++ cstring rest := by
    intro hzero
    apply List.takeWhile_append_of_pos
    intro b hb
    exact decide_eq_true fun heq => hzero (heq ▸ hb)
  refine ⟨fun h => ?_, fun h => ?_⟩
  · obtain ⟨hzero, hstring⟩ := h
    have hbytes : 0 ∉ bytes := by
      intro hin
      rw [← hstring, cstring] at hin
      simpa using List.mem_takeWhile_imp hin
    -- the string ends with the bytes: the next one is the NUL
    have hrest : cstring rest = [] := by
      rw [hplain hbytes] at hstring
      exact List.append_right_eq_self.mp hstring
    refine ⟨hbytes, ?_⟩
    rcases List.mem_append.mp hzero with hin | hin
    · exact absurd hin hbytes
    · cases rest with
      | nil => exact absurd hin List.not_mem_nil
      | cons b rest =>
        by_cases hb : b = 0
        · rw [hb, List.head?_cons]
        · rw [cstring, List.takeWhile_cons_of_pos (by exact decide_eq_true hb)] at hrest
          exact absurd hrest (List.cons_ne_nil _ _)
  · obtain ⟨hbytes, hhead⟩ := h
    obtain ⟨rest', rfl⟩ := List.head?_eq_some_iff.mp hhead
    refine ⟨List.mem_append_right _ List.mem_cons_self, ?_⟩
    rw [hplain hbytes]
    exact List.append_nil bytes

/-! What a wrapper's call adds to the trace. -/

section
variable {K : Kernel} {sys : Sys} {fd : Fd} {P : Sys → Prop} {Q : Exit → Prop}

theorem select_holds {nfds : Int} {set : Finset Fd} {P : Finset Fd × Sys → Prop}
    (hok : ∀ ready : Fd → Bool,
      P (set.filter fun fd => fd < nfds ∧ ready fd = true, sys.call .select))
    (herr : Q ⟨some "select error", sys⟩) : Holds P Q (select K sys nfds set) := by
  rw [select]
  cases K.select sys.trace.length with
  | none => exact herr
  | some ready => exact hok ready

theorem read_holds {P : Bytes × Sys → Prop}
    (hok : ∀ bytes : Bytes, bytes.length ≤ MAXLINE → P (bytes, sys.call (.read fd bytes)))
    (herr : Q ⟨some "read error", sys⟩)
    (hclosed : fd ∉ sys.opened → Q ⟨some "read error", sys.call (.read fd [])⟩) :
    Holds P Q (read K sys fd) := by
  rw [read]
  apply Holds.ite
  · intro _
    cases K.read sys.trace.length with
    | none => exact herr
    | some bytes => exact hok _ (List.length_take_le _ _)
  · exact hclosed

theorem send_holds {message : String} {bytes : Bytes}
    (hok : fd ∈ sys.opened → P (sys.call (.write fd bytes)))
    (herr : ∀ sent, sent <+: bytes → Q ⟨some message, sys.call (.write fd sent)⟩) :
    Holds P Q (send K sys message fd bytes) := by
  rw [send]
  apply Holds.ite
  · intro hopen
    apply Holds.ite
    · intro hall
      rw [List.take_of_length_le hall]
      exact hok hopen
    · intro _
      exact herr _ (List.take_prefix _ _)
  · intro _
    exact herr [] List.nil_prefix

theorem writen_holds {bytes : Bytes} (hnil : bytes = [] → P sys)
    (hok : bytes ≠ [] → fd ∈ sys.opened → P (sys.call (.write fd bytes)))
    (herr : bytes ≠ [] → ∀ sent, sent <+: bytes →
      Q ⟨some "writen error", sys.call (.write fd sent)⟩) :
    Holds P Q (writen K sys fd bytes) := by
  rw [writen]
  apply Holds.ite
  · exact hnil
  · intro hne
    exact send_holds (hok hne) (herr hne)

theorem shutdown_holds (hok : P (sys.call (.shutdown fd)))
    (herr : Q ⟨some "shutdown error", sys.call (.shutdown fd)⟩) :
    Holds P Q (shutdown K sys fd) := by
  rw [shutdown]
  apply Holds.ite
  · intro _
    exact hok
  · intro _
    exact herr

end

/-! What is read and written in a trace. -/

/-- What was read from a descriptor, read by read. -/
def reads (fd : Fd) (t : List Op) : List Bytes :=
  t.filterMap fun
    | .read fd' bytes => if fd' = fd then some bytes else none
    | _ => none

/-- What was written to a descriptor, write by write. -/
def writes (fd : Fd) (t : List Op) : List Bytes :=
  t.filterMap fun
    | .write fd' bytes => if fd' = fd then some bytes else none
    | _ => none

@[simp] theorem reads_append (fd : Fd) (t u : List Op) :
    reads fd (t ++ u) = reads fd t ++ reads fd u := List.filterMap_append

@[simp] theorem writes_append (fd : Fd) (t u : List Op) :
    writes fd (t ++ u) = writes fd t ++ writes fd u := List.filterMap_append

section
variable {fd fd' : Fd} {bytes : Bytes}

@[simp] theorem reads_read : reads fd [.read fd' bytes] = if fd' = fd then [bytes] else [] := by
  by_cases h : fd' = fd <;> simp [reads, h]

@[simp] theorem writes_write : writes fd [.write fd' bytes] = if fd' = fd then [bytes] else [] := by
  by_cases h : fd' = fd <;> simp [writes, h]

@[simp] theorem reads_write : reads fd [.write fd' bytes] = [] := rfl

@[simp] theorem writes_read : writes fd [.read fd' bytes] = [] := rfl

@[simp] theorem reads_shutdown : reads fd [.shutdown fd'] = [] := rfl

@[simp] theorem writes_shutdown : writes fd [.shutdown fd'] = [] := rfl

end

/-- The messages of a failed write. -/
def writeErrors : List (Option String) := [some "write error", some "writen error"]

end RubbishStore.Socket
