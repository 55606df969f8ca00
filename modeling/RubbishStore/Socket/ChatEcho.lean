import RubbishStore.Socket.StrCli

/- What `chat_strcli.c` shows of a typed line. It is printed as a C string from the
   buffer that everything is read into, received or typed, and that nothing
   terminates: what is shown is the line, and then what earlier reads have left
   behind it up to the first NUL. `filled` is the buffer that a trace has left, and
   `Shown` looks back from each print to the line and to the buffer before it. -/
namespace RubbishStore.Socket
open RubbishStore.Lib

/-- The buffer after a call. -/
def fill (buf : Bytes) : Op → Bytes
  | .read _ bytes => overwrite buf bytes
  | _ => buf

/-- The buffer after the calls of a trace, from `buf` on. -/
def filled (buf : Bytes) (t : List Op) : Bytes := t.foldl fill buf

/-- `"我说： "` -/
def iSay : Bytes := "我说： ".toUTF8.toList

/-- The calls from the read of a typed line to the print. -/
def typed (e : Endpoints) (bytes : Bytes) : List Op :=
  [.read e.fp bytes, .write stdoutFd StrCli.lineUp, .write stdoutFd StrCli.eraseLine]

/-- Each print shows a line just typed, from the buffer it was read into. -/
def Shown (e : Endpoints) (buf : Bytes) (t : List Op) : Prop :=
  ∀ pre text post, t = pre ++ .printf text :: post → ∃ before bytes,
    pre = before ++ typed e bytes ∧ bytes ≠ [] ∧
      text = iSay ++ cstring (overwrite (filled buf before) bytes)

/-- The display is the prefix and the line, and `printf` stays inside the buffer. -/
def ShowsExactly (buf bytes text : Bytes) : Prop :=
  text = iSay ++ bytes ∧ 0 ∈ overwrite buf bytes

section
variable {e : Endpoints} {buf : Bytes} {t : List Op} {op : Op}

/-- A call that neither reads nor prints. -/
def Silent : Op → Prop
  | .read _ _ => False
  | .printf _ => False
  | _ => True

theorem filled_concat (buf : Bytes) (t : List Op) (op : Op) :
    filled buf (t ++ [op]) = fill (filled buf t) op := List.foldl_concat _ _ _ _

theorem Silent.fill (h : Silent op) (buf : Bytes) : fill buf op = buf := by
  cases op with
  | read fd bytes => exact absurd h id
  | printf text => exact absurd h id
  | _ => rfl

theorem Shown.nil : Shown e buf [] := by
  intro pre text post heq
  exact absurd heq.symm (List.append_ne_nil_of_right_ne_nil _ (List.cons_ne_nil _ _))

/-- Another call; a print has to be of a typed line. -/
theorem Shown.concat (h : Shown e buf t) (hop : ∀ text, op = .printf text → ∃ before bytes,
    t = before ++ typed e bytes ∧ bytes ≠ [] ∧
      text = iSay ++ cstring (overwrite (filled buf before) bytes)) : Shown e buf (t ++ [op]) := by
  intro pre text post heq
  rcases List.eq_nil_or_concat post with rfl | ⟨post', last, hpost⟩
  · -- the print is the last call
    obtain ⟨rfl, hlast⟩ := List.append_inj' heq rfl
    exact hop text (List.singleton_injective hlast)
  · rw [hpost, List.concat_eq_append, ← List.cons_append, ← List.append_assoc] at heq
    exact h pre text post' (List.append_inj' heq rfl).1

theorem Shown.unprinted (h : Shown e buf t) (hop : ∀ text, op ≠ .printf text) :
    Shown e buf (t ++ [op]) :=
  h.concat fun text heq => absurd heq (hop text)

theorem Silent.unprinted (h : Silent op) (text : Bytes) : op ≠ .printf text := by
  intro heq
  rw [heq] at h
  exact h

/-- One display, and when it is the line. -/
theorem showsExactly_iff {bytes text : Bytes}
    (htext : text = iSay ++ cstring (overwrite buf bytes)) :
    ShowsExactly buf bytes text ↔ 0 ∉ bytes ∧ buf[bytes.length]? = some 0 := by
  have hbehind : buf[bytes.length]? = (buf.drop bytes.length).head? := by
    rw [List.head?_drop]
  rw [ShowsExactly, htext, List.append_cancel_left_eq, hbehind, ← cstring_append_iff, and_comm]
  rfl

end

/-- Between two calls of the client. -/
structure Echoed (e : Endpoints) (buf : Bytes) (s : StrCli) : Prop where
  buf_eq : s.buf = filled buf s.sys.trace
  shown : Shown e buf s.sys.trace

section
variable {K : Kernel} {e : Endpoints} {buf : Bytes} {s : StrCli}

theorem Echoed.call (h : Echoed e buf s) (op : Op) (hop : Silent op) (rset : Finset Fd)
    (stdineof : Bool) :
    Echoed e buf { s with rset := rset, stdineof := stdineof, sys := s.sys.call op } where
  buf_eq := by
    show s.buf = filled buf (s.sys.trace ++ [op])
    rw [filled_concat, hop.fill, h.buf_eq]
  shown := h.shown.unprinted hop.unprinted

/-- A read of either descriptor. -/
theorem Echoed.received (h : Echoed e buf s) (fd : Fd) (bytes : Bytes) :
    Echoed e buf { s with buf := overwrite s.buf bytes, sys := s.sys.call (.read fd bytes) } where
  buf_eq := by
    show overwrite s.buf bytes = filled buf (s.sys.trace ++ [.read fd bytes])
    rw [filled_concat, ← h.buf_eq]
    rfl
  shown := h.shown.unprinted fun text heq => Op.noConfusion heq

namespace StrCli

theorem fromSocket_echoed (h : Echoed e buf s) :
    Holds (Echoed e buf) (fun x => Shown e buf x.sys.trace) (s.fromSocket K e) := by
  have hread := fun bytes => h.received e.sockfd bytes
  rw [fromSocket]
  refine Holds.bind (read_holds (P := fun r => r.2 = s.sys.call (.read e.sockfd r.1))
    (fun _ _ => rfl) h.shown fun _ => (hread []).shown) ?_
  intro r hr
  obtain ⟨bytes, sys⟩ := r
  obtain rfl : sys = s.sys.call (.read e.sockfd bytes) := hr
  refine Holds.ite (fun _ => Holds.ite (fun _ => (hread bytes).shown) fun _ => (hread bytes).shown)
    fun _ => ?_
  refine Holds.bind (send_holds (P := fun sys => sys = (s.sys.call (.read e.sockfd bytes)).call
    (.write stdoutFd bytes)) (fun _ => rfl) ?_) ?_
  · intro sent _
    exact (hread bytes).shown.unprinted fun text heq => Op.noConfusion heq
  · intro sys hsys
    obtain rfl := hsys
    exact (hread bytes).call (.write stdoutFd bytes) trivial s.rset s.stdineof

/-- The line is shown from the buffer it was read into. -/
theorem chatEcho_echoed (h : Echoed e buf s) {bytes : Bytes} (hbytes : bytes ≠ []) :
    Holds (Echoed e buf) (fun x => Shown e buf x.sys.trace)
      (chatEcho K { s with buf := overwrite s.buf bytes, sys := s.sys.call (.read e.fp bytes) }) := by
  have hread := h.received e.fp bytes
  have hup := hread.call (.write stdoutFd lineUp) trivial s.rset s.stdineof
  have herase := hup.call (.write stdoutFd eraseLine) trivial s.rset s.stdineof
  rw [chatEcho]
  refine Holds.bind (send_holds (P := fun sys => sys = (s.sys.call (.read e.fp bytes)).call
    (.write stdoutFd lineUp)) (fun _ => rfl) ?_) ?_
  · intro sent _
    exact hread.shown.unprinted fun text heq => Op.noConfusion heq
  · intro sys hsys
    obtain rfl := hsys
    refine Holds.bind (send_holds (P := fun sys => sys = ((s.sys.call (.read e.fp bytes)).call
      (.write stdoutFd lineUp)).call (.write stdoutFd eraseLine)) (fun _ => rfl) ?_) ?_
    · intro sent _
      exact hup.shown.unprinted fun text heq => Op.noConfusion heq
    · intro sys hsys
      obtain rfl := hsys
      refine ⟨?_, herase.shown.concat fun text heq => ?_⟩
      · show overwrite s.buf bytes = filled buf (_ ++ [_])
        rw [filled_concat]
        exact herase.buf_eq
      · refine ⟨s.sys.trace, bytes, ?_, hbytes, ?_⟩
        · simp [typed, Sys.call]
        · rw [← h.buf_eq]
          exact (Op.printf.inj heq).symm

theorem fromInput_echoed (h : Echoed e buf s) :
    Holds (Echoed e buf) (fun x => Shown e buf x.sys.trace) (s.fromInput K e (chatEcho K)) := by
  have hread := fun bytes => h.received e.fp bytes
  rw [fromInput]
  refine Holds.bind (read_holds (P := fun r => r.2 = s.sys.call (.read e.fp r.1))
    (fun _ _ => rfl) h.shown fun _ => (hread []).shown) ?_
  intro r hr
  obtain ⟨bytes, sys⟩ := r
  obtain rfl : sys = s.sys.call (.read e.fp bytes) := hr
  refine Holds.ite (fun hnil => ?_) fun hne => ?_
  · -- nothing is read at the end of the input, and the buffer stays
    obtain rfl := hnil
    have hshut := (hread []).call (.shutdown e.sockfd) trivial s.rset s.stdineof
    refine Holds.bind (shutdown_holds (P := fun sys => sys = (s.sys.call (.read e.fp [])).call
      (.shutdown e.sockfd)) rfl hshut.shown) ?_
    intro sys hsys
    obtain rfl := hsys
    exact hshut.call (.fdClr e.fp) trivial (s.rset.erase e.fp) true
  · refine Holds.bind (chatEcho_echoed h hne) ?_
    intro s' hs'
    refine Holds.bind (writen_holds (P := fun sys => sys = s'.sys.call (.write e.sockfd bytes))
      (fun hnil => absurd hnil hne) (fun _ _ => rfl) ?_) ?_
    · intro _ sent _
      exact hs'.shown.unprinted fun text heq => Op.noConfusion heq
    · intro sys hsys
      obtain rfl := hsys
      exact hs'.call (.write e.sockfd bytes) trivial s'.rset s'.stdineof

theorem watch_echoed (h : Echoed e buf s) : Echoed e buf (s.watch e) := by
  rw [watch]
  cases s.stdineof with
  | true => exact h.call (.fdSet e.sockfd) trivial (insert e.sockfd s.rset) true
  | false =>
    have hfp := h.call (.fdSet e.fp) trivial (insert e.fp s.rset) false
    exact hfp.call (.fdSet e.sockfd) trivial (insert e.sockfd (insert e.fp s.rset)) false

/-- A round keeps the books, or ends the process with them in order. -/
theorem round_echoed (h : Echoed e buf s) :
    Holds (Echoed e buf) (fun x => Shown e buf x.sys.trace) (chatStrCli K e s) := by
  have hw := watch_echoed h
  rw [chatStrCli, round]
  refine Holds.bind (select_holds (P := fun r => r.2 = (s.watch e).sys.call .select)
    (fun _ => rfl) hw.shown) ?_
  intro r hr
  obtain ⟨rset, sys⟩ := r
  obtain rfl : sys = (s.watch e).sys.call .select := hr
  have hselect := hw.call .select trivial rset (s.watch e).stdineof
  have hisset := hselect.call (.fdIsset e.sockfd) trivial rset (s.watch e).stdineof
  refine Holds.bind (P := Echoed e buf) ?_ ?_
  · exact Holds.ite (fun _ => fromSocket_echoed hisset) fun _ => hisset
  · intro s' hs'
    have hisset' := hs'.call (.fdIsset e.fp) trivial s'.rset s'.stdineof
    exact Holds.ite (fun _ => fromInput_echoed hisset') fun _ => hisset'

end StrCli

end

/-- Each print is of a line just typed, and shows it exactly if the line has no NUL in
    it and the buffer had one right behind it. -/
def TypedShown (e : Endpoints) (buf : Bytes) (t : List Op) : Prop :=
  ∀ pre text post, t = pre ++ .printf text :: post → ∃ before bytes,
    pre = before ++ typed e bytes ∧ bytes ≠ [] ∧
      (ShowsExactly (filled buf before) bytes text ↔
        0 ∉ bytes ∧ (filled buf before)[bytes.length]? = some 0)

theorem Shown.typedShown {e : Endpoints} {buf : Bytes} {t : List Op} (h : Shown e buf t) :
    TypedShown e buf t := by
  intro pre text post heq
  obtain ⟨before, bytes, hpre, hbytes, htext⟩ := h pre text post heq
  exact ⟨before, bytes, hpre, hbytes, showsExactly_iff htext⟩

/-- In every run of the client, whatever was received and typed before. -/
theorem chat_shown_iff (K : Kernel) (e : Endpoints) (opened : Finset Fd) (buf : Bytes) (n : Nat) :
    Holds (fun s => TypedShown e buf s.sys.trace) (fun x => TypedShown e buf x.sys.trace)
      (iterate (StrCli.chatStrCli K e) n { buf := buf, sys := { opened := opened } }) := by
  refine Holds.mono (Holds.iterate (fun s hs => StrCli.round_echoed hs) ?_ n)
    (fun s hs => hs.shown.typedShown) fun x hx => Shown.typedShown hx
  exact ⟨rfl, Shown.nil⟩

/-- The server says `hello`, and then `a` is typed, with a newline each. -/
def helloThenA : Kernel :=
  .scripted (fun k fd => if k < 7 then fd = 3 else fd = 0)
    fun k => if k < 7 then [104, 101, 108, 108, 111, 10] else [97, 10]

/-- What was printed. -/
def prints (t : List Op) : List Bytes :=
  t.filterMap fun
    | .printf text => some text
    | _ => none

/-- Behind the line its display holds what is left of the message. -/
theorem chat_shows_residue :
    Holds
      (fun s => prints s.sys.trace = [iSay ++ [97, 10] ++ [108, 108, 111, 10]] ∧
        prints s.sys.trace ≠ [iSay ++ [97, 10]])
      (fun _ => False)
      (iterate (StrCli.chatStrCli helloThenA ⟨0, 3, by decide, by decide⟩) 2
        { buf := List.replicate MAXLINE 0, sys := { opened := {0, 1, 3} } }) := by
  decide +kernel

end RubbishStore.Socket
