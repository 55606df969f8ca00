import Mathlib.Data.Finset.Filter
import Mathlib.Data.String.Basic
import RubbishStore.Socket.Unp

/- `str_cli` of `select_strcli.c` and of `chat_strcli.c`: bytes go from `fp` to the
   socket and from the socket to standard output, as `select` finds either ready.
   The two differ in what is shown before a typed line is sent (`echo`). At end of
   input the socket is shut down for writing and `fp` leaves the set for good;
   the function returns at the socket's end of file after that. `Told` is what a
   trace of it says between two of its calls. -/
namespace RubbishStore.Socket
open RubbishStore.Lib

/-- Two descriptors of their own, of which the socket is not standard output. -/
structure Endpoints where
  fp : Fd
  sockfd : Fd
  sockfd_ne_fp : sockfd ≠ fp
  sockfd_ne_stdout : sockfd ≠ stdoutFd

/-- The variables of `str_cli`. -/
structure StrCli where
  stdineof : Bool := false
  rset : Finset Fd := ∅
  buf : Bytes
  sys : Sys

namespace StrCli
variable (K : Kernel) (e : Endpoints)

/-- The set that `Select` is called with. -/
def watch (s : StrCli) : StrCli :=
  let (rset, sys) := if s.stdineof then (s.rset, s.sys) else fdSet s.sys e.fp s.rset
  let (rset, sys) := fdSet sys e.sockfd rset
  { s with rset := rset, sys := sys }

/-- socket is readable -/
def fromSocket (s : StrCli) : Except Exit StrCli := do
  let (bytes, sys) ← read K s.sys e.sockfd
  if bytes = [] then
    if s.stdineof then .error ⟨none, sys⟩
    else .error ⟨some "str_cli: server terminated prematurely", sys⟩
  else
    let sys ← write K sys stdoutFd bytes
    .ok { s with buf := overwrite s.buf bytes, sys := sys }

/-- input is readable -/
def fromInput (echo : StrCli → Except Exit StrCli) (s : StrCli) : Except Exit StrCli := do
  let (bytes, sys) ← read K s.sys e.fp
  if bytes = [] then
    let sys ← shutdown K sys e.sockfd
    let (rset, sys) := fdClr sys e.fp s.rset
    .ok { s with stdineof := true, rset := rset, sys := sys }
  else
    let s ← echo { s with buf := overwrite s.buf bytes, sys := sys }
    let sys ← writen K s.sys e.sockfd bytes
    .ok { s with sys := sys }

/-- One round of the loop. -/
def round (echo : StrCli → Except Exit StrCli) (s : StrCli) : Except Exit StrCli := do
  let s := s.watch e
  let (rset, sys) ← select K s.sys (max e.fp e.sockfd + 1) s.rset
  let (readable, sys) := fdIsset sys e.sockfd rset
  let s := { s with rset := rset, sys := sys }
  let s ← (if readable then s.fromSocket K e else .ok s)
  let (readable, sys) := fdIsset s.sys e.fp s.rset
  let s := { s with sys := sys }
  if readable then s.fromInput K e echo else .ok s

/-- `select_strcli.c` shows nothing of its own. -/
def selectStrCli : StrCli → Except Exit StrCli := round K e .ok

/-- `"\033[1A"` and `"\033[K"`, with their NULs: `sizeof` counts them. -/
def lineUp : Bytes := [27, 91, 49, 65, 0]

def eraseLine : Bytes := [27, 91, 75, 0]

/-- The typed line, shown again behind a prefix. -/
def chatEcho (s : StrCli) : Except Exit StrCli := do
  let sys ← write K s.sys stdoutFd lineUp
  let sys ← write K sys stdoutFd eraseLine
  .ok { s with sys := sys.call (.printf ("我说： ".toUTF8.toList ++ cstring s.buf)) }

/-- `chat_strcli.c` -/
def chatStrCli : StrCli → Except Exit StrCli := round K e (chatEcho K)

end StrCli

namespace Endpoints
variable (e : Endpoints)

/-- A call that neither reads the input, nor writes to the socket, nor shuts it down. -/
def Quiet : Op → Prop
  | .read fd _ => fd ≠ e.fp
  | .write fd _ => fd ≠ e.sockfd
  | .shutdown fd => fd ≠ e.sockfd
  | _ => True

/-- A call that neither reads the socket nor writes to standard output. -/
def Unseen : Op → Prop
  | .read fd _ => fd ≠ e.sockfd
  | .write fd _ => fd ≠ stdoutFd
  | _ => True

/-- After the socket was shut down there are only quiet calls. -/
def Closed (t : List Op) : Prop :=
  ∀ pre post, t = pre ++ .shutdown e.sockfd :: post → ∀ op ∈ post, e.Quiet op

end Endpoints

/-- What standard output is to show of the socket's bytes. -/
structure Display (e : Endpoints) (shown : List Op → Prop) : Prop where
  nil : shown []
  unseen : ∀ t op, e.Unseen op → shown t → shown (t ++ [op])
  eof : ∀ t, shown t → shown (t ++ [.read e.sockfd []])
  received : ∀ t bytes, bytes ≠ [] → shown t →
    shown (t ++ [.read e.sockfd bytes] ++ [.write stdoutFd bytes])

/-- What the trace says of the input: `owing` has been read and is still to be
    sent; `eof` is whether the input has ended. -/
structure Relayed (e : Endpoints) (eof : Bool) (owing : Bytes) (t : List Op) : Prop where
  sent : (writes e.sockfd t).flatten ++ owing = (reads e.fp t).flatten
  closed : e.Closed t
  unshut : eof = false → .shutdown e.sockfd ∉ t
  ended : eof = true → .read e.fp [] ∈ t

/-- What the trace says when the process has ended. -/
structure Left (e : Endpoints) (shown : List Op → Prop) (x : Exit) : Prop where
  sent_prefix : (writes e.sockfd x.sys.trace).flatten <+: (reads e.fp x.sys.trace).flatten
  sent : x.message ∉ writeErrors →
    (writes e.sockfd x.sys.trace).flatten = (reads e.fp x.sys.trace).flatten
  shown : x.message ∉ writeErrors → shown x.sys.trace
  closed : e.Closed x.sys.trace
  returned : x.message = none →
    .read e.fp [] ∈ x.sys.trace ∧ .read e.sockfd [] ∈ x.sys.trace

namespace Endpoints
variable {e : Endpoints} {t : List Op} {op : Op}

theorem Closed.append (h : e.Closed t) (hop : .shutdown e.sockfd ∈ t → e.Quiet op) :
    e.Closed (t ++ [op]) := by
  intro pre post heq other hmem
  -- the new call is the last one behind the shutdown, or it is the shutdown itself
  rcases List.eq_nil_or_concat post with rfl | ⟨post', last, rfl⟩
  · exact absurd hmem List.not_mem_nil
  · rw [List.concat_eq_append] at heq hmem
    rw [← List.cons_append, ← List.append_assoc] at heq
    obtain ⟨rfl, hlast⟩ := List.append_inj' heq rfl
    obtain rfl := List.singleton_injective hlast
    rcases List.mem_append.mp hmem with hmem | hmem
    · exact h pre post' rfl other hmem
    · obtain rfl := List.mem_singleton.mp hmem
      exact hop (List.mem_append_right pre List.mem_cons_self)

end Endpoints

namespace Relayed
variable {e : Endpoints} {eof : Bool} {owing bytes : Bytes} {t : List Op} {op : Op}

theorem quiet (h : Relayed e eof owing t) (hop : e.Quiet op) :
    Relayed e eof owing (t ++ [op]) := by
  have hreads : reads e.fp [op] = [] := by
    cases op with
    | read fd bytes => exact reads_read.trans (if_neg hop)
    | _ => rfl
  have hwrites : writes e.sockfd [op] = [] := by
    cases op with
    | write fd bytes => exact writes_write.trans (if_neg hop)
    | _ => rfl
  refine ⟨?_, h.closed.append fun _ => hop, ?_, ?_⟩
  · rw [writes_append, reads_append, hreads, hwrites, List.append_nil, List.append_nil, h.sent]
  · intro heof hmem
    rcases List.mem_append.mp hmem with hmem | hmem
    · exact h.unshut heof hmem
    · obtain rfl := List.mem_singleton.mp hmem
      exact hop rfl
  · intro heof
    exact List.mem_append_left _ (h.ended heof)

/-- The input is read. -/
theorem typed (h : Relayed e false [] t) : Relayed e false bytes (t ++ [.read e.fp bytes]) := by
  refine ⟨?_, h.closed.append fun hmem => absurd hmem (h.unshut rfl), ?_, ?_⟩
  · have hsent := h.sent
    rw [List.append_nil] at hsent
    simp [hsent]
  · intro _ hmem
    exact h.unshut rfl (by simpa using hmem)
  · intro heof
    exact absurd heof Bool.false_ne_true

/-- Of what was read, some is sent. -/
theorem delivered (h : Relayed e false (bytes ++ owing) t) :
    Relayed e false owing (t ++ [.write e.sockfd bytes]) := by
  refine ⟨?_, h.closed.append fun hmem => absurd hmem (h.unshut rfl), ?_, ?_⟩
  · simp [h.sent]
  · intro _ hmem
    exact h.unshut rfl (by simpa using hmem)
  · intro heof
    exact absurd heof Bool.false_ne_true

/-- The input has ended, and the socket is shut down. -/
theorem shut (h : Relayed e false [] t) (hended : .read e.fp [] ∈ t) :
    Relayed e true [] (t ++ [.shutdown e.sockfd]) := by
  refine ⟨?_, h.closed.append fun hmem => absurd hmem (h.unshut rfl), ?_, ?_⟩
  · simpa using h.sent
  · intro heof
    exact absurd heof.symm Bool.false_ne_true
  · intro _
    exact List.mem_append_left _ hended

end Relayed

/-- Between two rounds: nothing is owed, and an ended input is out of the set. -/
structure Relays (e : Endpoints) (shown : List Op → Prop) (s : StrCli) : Prop where
  relayed : Relayed e s.stdineof [] s.sys.trace
  shown : shown s.sys.trace
  unset : s.stdineof = true → e.fp ∉ s.rset

/-- Showing a typed line leaves the variables alone, and the input and the socket. -/
def Echoes (e : Endpoints) (shown : List Op → Prop) (echo : StrCli → Except Exit StrCli) : Prop :=
  ∀ s owing, Relayed e false owing s.sys.trace → shown s.sys.trace →
    Holds
      (fun s' => s'.stdineof = s.stdineof ∧ s'.rset = s.rset ∧
        Relayed e false owing s'.sys.trace ∧ shown s'.sys.trace)
      (fun x => x.message ∈ writeErrors ∧ Relayed e false owing x.sys.trace) (echo s)

section
variable {K : Kernel} {e : Endpoints} {shown : List Op → Prop} {s : StrCli}

theorem Relayed.left {eof : Bool} {owing : Bytes} {x : Exit}
    (h : Relayed e eof owing x.sys.trace)
    (hcut : x.message ∉ writeErrors → owing = [] ∧ shown x.sys.trace)
    (hreturned : x.message = none →
      .read e.fp [] ∈ x.sys.trace ∧ .read e.sockfd [] ∈ x.sys.trace) : Left e shown x where
  sent_prefix := ⟨owing, h.sent⟩
  sent := by
    intro hmessage
    have hsent := h.sent
    rwa [(hcut hmessage).1, List.append_nil] at hsent
  shown := fun hmessage => (hcut hmessage).2
  closed := h.closed
  returned := hreturned

/-- The process ends between two rounds. -/
theorem Relays.left {sys : Sys} {message : String} (hrelayed : Relayed e s.stdineof [] sys.trace)
    (hshown : shown sys.trace) : Left e shown ⟨some message, sys⟩ :=
  hrelayed.left (fun _ => ⟨rfl, hshown⟩) fun hnone => absurd hnone (Option.some_ne_none message)

namespace StrCli

theorem fromSocket_holds (hd : Display e shown) (h : Relays e shown s) :
    Holds (Relays e shown) (Left e shown) (s.fromSocket K e) := by
  have hquiet : ∀ bytes, Relayed e s.stdineof [] (s.sys.trace ++ [.read e.sockfd bytes]) :=
    fun bytes => h.relayed.quiet e.sockfd_ne_fp
  rw [fromSocket]
  refine Holds.bind (read_holds (P := fun r => r.2 = s.sys.call (.read e.sockfd r.1)) ?_ ?_ ?_) ?_
  · intro bytes _
    rfl
  · exact Relays.left h.relayed h.shown
  · intro _
    exact Relays.left (hquiet []) (hd.eof _ h.shown)
  · intro r hr
    obtain ⟨bytes, sys⟩ := r
    obtain rfl : sys = s.sys.call (.read e.sockfd bytes) := hr
    show Holds _ _ (if bytes = [] then _ else _)
    apply Holds.ite
    · intro heq
      obtain rfl := heq
      apply Holds.ite
      · -- normal termination
        intro heof
        refine (hquiet []).left (fun _ => ⟨rfl, hd.eof _ h.shown⟩) fun _ => ⟨?_, ?_⟩
        · exact List.mem_append_left _ (h.relayed.ended heof)
        · exact List.mem_append_right _ List.mem_cons_self
      · intro _
        exact Relays.left (hquiet []) (hd.eof _ h.shown)
    · intro hne
      -- the bytes go to standard output, which is not the socket
      have hout : ∀ sent, Relayed e s.stdineof []
          (s.sys.trace ++ [.read e.sockfd bytes] ++ [.write stdoutFd sent]) :=
        fun sent => (hquiet bytes).quiet e.sockfd_ne_stdout.symm
      refine Holds.bind (send_holds (P := fun sys => sys = (s.sys.call (.read e.sockfd bytes)).call
        (.write stdoutFd bytes)) ?_ ?_) ?_
      · intro _
        rfl
      · intro sent _
        refine (hout sent).left (fun hmessage => ?_) ?_
        · exact absurd List.mem_cons_self hmessage
        · intro hnone
          exact absurd hnone (Option.some_ne_none _)
      · intro sys hsys
        rw [hsys]
        exact
          { relayed := hout bytes
            shown := hd.received _ _ hne h.shown
            unset := h.unset }

theorem fromInput_holds {echo : StrCli → Except Exit StrCli} (hd : Display e shown)
    (hecho : Echoes e shown echo) (h : Relays e shown s) (heof : s.stdineof = false) :
    Holds (Relays e shown) (Left e shown) (s.fromInput K e echo) := by
  have hrelayed : Relayed e false [] s.sys.trace := heof ▸ h.relayed
  have htyped : ∀ bytes, Relayed e false bytes (s.sys.trace ++ [.read e.fp bytes]) :=
    fun bytes => hrelayed.typed
  have hunseen : ∀ bytes, shown (s.sys.trace ++ [.read e.fp bytes]) :=
    fun bytes => hd.unseen _ _ e.sockfd_ne_fp.symm h.shown
  rw [fromInput]
  refine Holds.bind (read_holds (P := fun r => r.2 = s.sys.call (.read e.fp r.1)) ?_ ?_ ?_) ?_
  · intro bytes _
    rfl
  · exact Relays.left h.relayed h.shown
  · intro _
    exact (htyped []).left (fun _ => ⟨rfl, hunseen []⟩)
      fun hnone => absurd hnone (Option.some_ne_none _)
  · intro r hr
    obtain ⟨bytes, sys⟩ := r
    obtain rfl : sys = s.sys.call (.read e.fp bytes) := hr
    show Holds _ _ (if bytes = [] then _ else _)
    apply Holds.ite
    · intro heq
      obtain rfl := heq
      -- end of the input: the socket is shut down, and `fp` leaves the set
      have hended : Op.read e.fp [] ∈ (s.sys.call (.read e.fp [])).trace :=
        List.mem_append_right _ List.mem_cons_self
      have hshut := (htyped []).shut hended
      have hshown := hd.unseen _ (.shutdown e.sockfd) trivial (hunseen [])
      refine Holds.bind (shutdown_holds (P := fun sys => sys = (s.sys.call (.read e.fp [])).call
        (.shutdown e.sockfd)) rfl ?_) ?_
      · exact hshut.left (fun _ => ⟨rfl, hshown⟩) fun hnone => absurd hnone (Option.some_ne_none _)
      · intro sys hsys
        rw [hsys]
        have hcleared : Relayed e true []
            (s.sys.trace ++ [.read e.fp []] ++ [.shutdown e.sockfd] ++ [.fdClr e.fp]) :=
          hshut.quiet trivial
        exact
          { relayed := hcleared
            shown := hd.unseen _ (.fdClr e.fp) trivial hshown
            unset := fun _ => Finset.notMem_erase e.fp s.rset }
    · intro hne
      -- a line: it is owed to the socket until it is written
      refine Holds.bind (Holds.mono (hecho _ bytes (htyped bytes) (hunseen bytes))
        (fun _ hs' => hs') ?_) ?_
      · intro x hx
        refine hx.2.left (fun hmessage => absurd hx.1 hmessage) fun hnone => ?_
        have hmessage := hx.1
        rw [hnone] at hmessage
        exact absurd hmessage (by decide)
      · intro s' hs'
        obtain ⟨hstdineof, hrset, howing, hshown'⟩ := hs'
        refine Holds.bind (writen_holds (P := fun sys => sys = s'.sys.call (.write e.sockfd bytes))
          (fun hnil => absurd hnil hne) (fun _ _ => rfl) ?_) ?_
        · -- what was sent before the write failed is a prefix of the line
          intro _ sent hsent
          obtain ⟨rest, rfl⟩ := hsent
          refine howing.delivered.left (fun hmessage => ?_) fun hnone => ?_
          · exact absurd (List.mem_cons_of_mem _ List.mem_cons_self) hmessage
          · exact absurd hnone (Option.some_ne_none _)
        · intro sys hsys
          rw [hsys]
          refine ⟨?_, ?_, ?_⟩
          · show Relayed e s'.stdineof [] (s'.sys.trace ++ [.write e.sockfd bytes])
            rw [hstdineof, heof]
            rw [← List.append_nil bytes] at howing
            exact howing.delivered
          · exact hd.unseen _ _ e.sockfd_ne_stdout hshown'
          · intro heof'
            exact absurd (heof'.symm.trans (hstdineof.trans heof)) (by decide)

/-- A call that is neither a read nor a write nor a shutdown, and a new set. -/
theorem relays_call (hd : Display e shown) (h : Relays e shown s) (op : Op) (hquiet : e.Quiet op)
    (hunseen : e.Unseen op) {rset : Finset Fd} (hrset : s.stdineof = true → e.fp ∉ rset) :
    Relays e shown { s with rset := rset, sys := s.sys.call op } where
  relayed := h.relayed.quiet hquiet
  shown := hd.unseen _ op hunseen h.shown
  unset := hrset

theorem relays_watch (hd : Display e shown) (h : Relays e shown s) :
    Relays e shown (s.watch e) := by
  have hsock : ∀ rset : Finset Fd, e.fp ∉ rset → e.fp ∉ insert e.sockfd rset := by
    intro rset hrset hmem
    rcases Finset.mem_insert.mp hmem with heq | hmem
    · exact e.sockfd_ne_fp heq.symm
    · exact hrset hmem
  rw [watch]
  cases heof : s.stdineof with
  | true =>
    -- `fp` is not put back after the end of the input
    have hs := relays_call hd h (.fdSet e.sockfd) trivial trivial
      fun _ => hsock s.rset (h.unset heof)
    rw [heof] at hs
    exact hs
  | false =>
    have hnever : ∀ rset : Finset Fd, s.stdineof = true → e.fp ∉ rset := by
      intro rset htrue
      exact absurd (heof.symm.trans htrue) Bool.false_ne_true
    have hs := relays_call hd h (.fdSet e.fp) trivial trivial (hnever (insert e.fp s.rset))
    have hs' := relays_call hd hs (.fdSet e.sockfd) trivial trivial
      (hnever (insert e.sockfd (insert e.fp s.rset)))
    simp only [heof] at hs'
    exact hs'

/-- A round keeps the books, or ends the process with them in order. -/
theorem round_holds {echo : StrCli → Except Exit StrCli} (hd : Display e shown)
    (hecho : Echoes e shown echo) (h : Relays e shown s) :
    Holds (Relays e shown) (Left e shown) (round K e echo s) := by
  have hw := relays_watch hd h
  rw [round]
  refine Holds.bind (select_holds (P := fun r =>
    Relays e shown { s.watch e with rset := r.1, sys := r.2 }) ?_ ?_) ?_
  · intro ready
    refine relays_call hd hw .select trivial trivial fun heof hmem => ?_
    exact hw.unset heof (Finset.mem_of_mem_filter _ hmem)
  · exact Relays.left hw.relayed hw.shown
  · intro r hr
    obtain ⟨rset, sys⟩ := r
    have hisset := relays_call hd hr (.fdIsset e.sockfd) trivial trivial hr.unset
    refine Holds.bind (P := Relays e shown) ?_ ?_
    · exact Holds.ite (fun _ => fromSocket_holds hd hisset) fun _ => hisset
    · intro s' hs'
      have hisset' := relays_call hd hs' (.fdIsset e.fp) trivial trivial hs'.unset
      refine Holds.ite (fun hhit => ?_) fun _ => hisset'
      -- the input is only read while it is in the set, so before its end
      apply fromInput_holds hd hecho hisset'
      by_contra heof
      exact hs'.unset (Bool.eq_true_of_not_eq_false heof) (of_decide_eq_true hhit)

end StrCli

end

/-! The two clients. -/

/-- Standard output shows the socket's bytes and nothing else. -/
def Endpoints.Copied (e : Endpoints) (t : List Op) : Prop :=
  (writes stdoutFd t).flatten = (reads e.sockfd t).flatten

/-- Each read of the socket is a write of its own on standard output, in order. -/
def Endpoints.Interspersed (e : Endpoints) (t : List Op) : Prop :=
  ((reads e.sockfd t).filter (· ≠ [])).Sublist (writes stdoutFd t)

section
variable {e : Endpoints} {t : List Op} {op : Op}

theorem Endpoints.Unseen.reads (h : e.Unseen op) : reads e.sockfd [op] = [] := by
  cases op with
  | read fd bytes => exact reads_read.trans (if_neg h)
  | _ => rfl

theorem Endpoints.Unseen.writes (h : e.Unseen op) : writes stdoutFd [op] = [] := by
  cases op with
  | write fd bytes => exact writes_write.trans (if_neg h)
  | _ => rfl

variable (e)

theorem display_copied : Display e e.Copied where
  nil := rfl
  unseen := by
    intro t op hop h
    rw [Endpoints.Copied, writes_append, reads_append, hop.reads, hop.writes, List.append_nil,
      List.append_nil]
    exact h
  eof := by
    intro t h
    simpa [Endpoints.Copied] using h
  received := by
    intro t bytes _ h
    rw [Endpoints.Copied] at h
    rw [Endpoints.Copied, writes_append, writes_append, reads_append, reads_append]
    simp [h]

theorem display_interspersed : Display e e.Interspersed where
  nil := List.Sublist.refl []
  unseen := by
    intro t op hop h
    rw [Endpoints.Interspersed, writes_append, reads_append, hop.reads, hop.writes, List.append_nil,
      List.append_nil]
    exact h
  eof := by
    intro t h
    simpa [Endpoints.Interspersed] using h
  received := by
    intro t bytes hne h
    rw [Endpoints.Interspersed] at h ⊢
    rw [writes_append, writes_append, reads_append, reads_append]
    simpa [hne] using h

/-- More on standard output leaves the socket's reads where they are. -/
theorem interspersed_write (h : e.Interspersed t) (bytes : Bytes) :
    e.Interspersed (t ++ [.write stdoutFd bytes]) := by
  rw [Endpoints.Interspersed, reads_append, reads_write, List.append_nil, writes_append]
  exact h.trans (List.sublist_append_left _ _)

theorem echoes_ok (shown : List Op → Prop) : Echoes e shown .ok := by
  intro s owing h hshown
  exact ⟨rfl, rfl, h, hshown⟩

theorem echoes_chat (K : Kernel) : Echoes e e.Interspersed (StrCli.chatEcho K) := by
  intro s owing h hshown
  have hout : ∀ (t : List Op) bytes, Relayed e false owing t →
      Relayed e false owing (t ++ [.write stdoutFd bytes]) :=
    fun t bytes ht => ht.quiet e.sockfd_ne_stdout.symm
  have hfailed : some "write error" ∈ writeErrors := List.mem_cons_self
  rw [StrCli.chatEcho]
  refine Holds.bind (send_holds
    (P := fun sys => Relayed e false owing sys.trace ∧ e.Interspersed sys.trace) ?_ ?_) ?_
  · intro _
    exact ⟨hout _ _ h, interspersed_write e hshown _⟩
  · intro sent _
    exact ⟨hfailed, hout _ _ h⟩
  · intro sys hsys
    refine Holds.bind (send_holds
      (P := fun sys => Relayed e false owing sys.trace ∧ e.Interspersed sys.trace) ?_ ?_) ?_
    · intro _
      exact ⟨hout _ _ hsys.1, interspersed_write e hsys.2 _⟩
    · intro sent _
      exact ⟨hfailed, hout _ _ hsys.1⟩
    · intro sys' hsys'
      refine ⟨rfl, rfl, hsys'.1.quiet trivial, ?_⟩
      exact (display_interspersed e).unseen _ (.printf _) trivial hsys'.2

end

/-- After any number of rounds, or when a round has ended the process: the socket
    was sent what was typed, standard output shows what was received (among its
    own lines in the chat client), after one shutdown the socket is not written
    to and the input not read, and a return has met both ends of file. -/
theorem strCli_relays (K : Kernel) (e : Endpoints) (opened : Finset Fd) (buf : Bytes) (n : Nat) :
    let start : StrCli := { buf := buf, sys := { opened := opened } }
    Holds (Relays e e.Copied) (Left e e.Copied) (iterate (StrCli.selectStrCli K e) n start) ∧
      Holds (Relays e e.Interspersed) (Left e e.Interspersed)
        (iterate (StrCli.chatStrCli K e) n start) := by
  intro start
  have hstart : ∀ {shown : List Op → Prop}, Display e shown → Relays e shown start := by
    intro shown hd
    refine ⟨⟨rfl, ?_, fun _ => List.not_mem_nil, ?_⟩, hd.nil, ?_⟩
    · intro pre post heq
      exact absurd heq.symm (List.append_ne_nil_of_right_ne_nil _ (List.cons_ne_nil _ _))
    · intro heof
      exact absurd heof Bool.false_ne_true
    · intro heof
      exact absurd heof Bool.false_ne_true
  constructor
  · apply Holds.iterate
    · intro s hs
      exact StrCli.round_holds (display_copied e) (echoes_ok e _) hs
    · exact hstart (display_copied e)
  · apply Holds.iterate
    · intro s hs
      exact StrCli.round_holds (display_interspersed e) (echoes_chat e K) hs
    · exact hstart (display_interspersed e)

end RubbishStore.Socket
