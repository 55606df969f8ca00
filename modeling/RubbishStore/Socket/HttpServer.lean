import RubbishStore.Socket.SelectSets

/- What `httpserver.c` does with a ready descriptor, in one rule, and what follows
   for a run of it: the life of the descriptors (`Settled`) and what the parser is
   handed (`Exact`). A client that hangs up before it has sent anything ends the
   process: the hang-up closes its descriptor, and the answer is written to that. -/
namespace RubbishStore.Socket
open RubbishStore.Lib

namespace Server

section
variable {K : Kernel} {l : Listening} {s s' : Server} {i : Nat} {sockfd : Fd}

/-- A client is gone. -/
def gone (i : Nat) (sockfd : Fd) (s : Server) : Server :=
  { s with
    client := s.client.set i (-1)
    allset := s.allset.erase sockfd
    sys :=
      { opened := s.sys.opened.erase sockfd
        trace := s.sys.trace ++ [.close sockfd] ++ [.fdClr sockfd] } }

theorem hangUp_eq_gone (h : sockfd ∈ s.sys.opened) : hangUp i sockfd s = .ok (gone i sockfd s) := by
  rw [hangUp, close, if_pos h]
  rfl

/-- A request has been read, shown, parsed and answered, and its client is gone. -/
def answered (i : Nat) (sockfd : Fd) (bytes : Bytes) (s : Server) : Server :=
  { s with
    client := s.client.set i (-1)
    allset := s.allset.erase sockfd
    buf := overwrite s.buf bytes
    sys :=
      { opened := s.sys.opened.erase sockfd
        trace := s.sys.trace ++ [.read sockfd bytes, .write stdoutFd bytes,
          .parse (handed (overwrite s.buf bytes)), .write sockfd response, .close sockfd,
          .fdClr sockfd] } }

theorem response_ne_nil : response ≠ [] := by
  decide +kernel

theorem writen_closed {sys : Sys} {bytes : Bytes} (hclosed : sockfd ∉ sys.opened)
    (hbytes : bytes ≠ []) :
    writen K sys sockfd bytes = .error ⟨some "writen error", sys.call (.write sockfd [])⟩ := by
  rw [writen, if_neg hbytes, send, if_neg hclosed]

/-- All the ways a request goes: it is answered, or a call fails. After a hang-up
    that is the answer, to the descriptor just closed. -/
theorem httpServe_holds {P : Server → Prop} {Q : Exit → Prop}
    (hok : ∀ bytes, bytes ≠ [] → P (answered i sockfd bytes s))
    (hread : Q ⟨some "read error", s.sys⟩)
    (hclosed : sockfd ∉ s.sys.opened → Q ⟨some "read error", s.sys.call (.read sockfd [])⟩)
    (hshow : ∀ bytes sent, bytes ≠ [] → Q ⟨some "writen error",
      ⟨s.sys.opened, s.sys.trace ++ [.read sockfd bytes, .write stdoutFd sent]⟩⟩)
    (hanswer : ∀ bytes sent, bytes ≠ [] → Q ⟨some "writen error",
      ⟨s.sys.opened, s.sys.trace ++ [.read sockfd bytes, .write stdoutFd bytes,
        .parse (handed (overwrite s.buf bytes)), .write sockfd sent]⟩⟩)
    (heof : Q ⟨some "writen error", ⟨s.sys.opened.erase sockfd, s.sys.trace ++
      [.read sockfd [], .close sockfd, .fdClr sockfd, .parse (handed s.buf), .write sockfd []]⟩⟩) :
    Holds P Q (httpServe K i sockfd s) := by
  by_cases hopen : sockfd ∈ s.sys.opened
  · refine Holds.bind (read_holds (P := fun r => r.2 = s.sys.call (.read sockfd r.1))
      (fun _ _ => rfl) hread hclosed) ?_
    intro r hsys
    obtain ⟨bytes, sys⟩ := r
    obtain rfl : sys = s.sys.call (.read sockfd bytes) := hsys
    by_cases hbytes : bytes = []
    · subst hbytes
      -- after the hang-up the parser runs on what the buffer holds, and the answer goes
      -- to the closed descriptor
      let s₁ : Server := { s with sys := s.sys.call (.read sockfd []) }
      have hclosed' : sockfd ∉ ((gone i sockfd s₁).sys.call (.parse (handed s.buf))).opened :=
        Finset.notMem_erase _ _
      show Holds P Q (hangUp i sockfd s₁ >>= _)
      rw [hangUp_eq_gone (s := s₁) hopen]
      show Holds P Q
        (writen K ((gone i sockfd s₁).sys.call (.parse (handed s.buf))) sockfd response >>= _)
      rw [writen_closed hclosed' response_ne_nil]
      show Q ⟨some "writen error", _⟩
      simpa [Sys.call, gone, s₁] using heof
    · refine Holds.bind (P := fun s' => s' = { s with
        buf := overwrite s.buf bytes
        sys := (s.sys.call (.read sockfd bytes)).call (.write stdoutFd bytes) }) ?_ ?_
      · rw [if_neg hbytes]
        refine Holds.bind (writen_holds
          (P := fun sys => sys = (s.sys.call (.read sockfd bytes)).call (.write stdoutFd bytes))
          (fun hnil => absurd hnil hbytes) (fun _ _ => rfl) ?_) ?_
        · intro _ sent _
          simpa [Sys.call] using hshow bytes sent hbytes
        · intro sys heq
          obtain rfl := heq
          rfl
      · -- parsed, and answered
        intro s' heq
        obtain rfl := heq
        refine Holds.bind (writen_holds
          (P := fun sys => sys = (((s.sys.call (.read sockfd bytes)).call
            (.write stdoutFd bytes)).call (.parse (handed (overwrite s.buf bytes)))).call
              (.write sockfd response))
          (fun hnil => absurd hnil response_ne_nil) (fun _ _ => rfl) ?_) ?_
        · intro _ sent _
          simpa [Sys.call] using hanswer bytes sent hbytes
        · intro sys heq
          obtain rfl := heq
          rw [hangUp_eq_gone (by exact hopen)]
          simpa [Sys.call, gone, answered] using hok bytes hbytes
  · rw [httpServe, read, if_neg hopen]
    exact hclosed hopen

theorem served_answered (i : Nat) (sockfd : Fd) (bytes : Bytes) (s : Server) :
    Served i sockfd s (answered i sockfd bytes s) where
  maxi := rfl
  maxfd := rfl
  rset := rfl
  nready := rfl
  client := .inr ⟨rfl, rfl, rfl⟩
  reads := ⟨_, rfl, rfl⟩

theorem httpServe_served (i : Nat) (sockfd : Fd) (s : Server) :
    Holds (Served i sockfd s) (fun _ => True) (httpServe K i sockfd s) :=
  httpServe_holds (fun bytes _ => served_answered i sockfd bytes s) trivial (fun _ => trivial)
    (fun _ _ _ => trivial) (fun _ _ _ => trivial) trivial

end

/-! The life of a descriptor. -/

/-- The accepted descriptors: those in use, and those closed since. -/
structure Descriptors where
  live : Finset Fd := ∅
  closed : Finset Fd := ∅

/-- Nothing more is said of a run that uses a closed descriptor. -/
def Descriptors.call (d : Descriptors) : Op → Option Descriptors
  | .accept fd => some { live := insert fd d.live, closed := d.closed.erase fd }
  | .read fd _ => if fd ∈ d.closed then none else some d
  | .write fd _ => if fd ∈ d.closed then none else some d
  | .close fd =>
    if fd ∈ d.closed then none
    else some { live := d.live.erase fd, closed := insert fd d.closed }
  | _ => some d

def descriptors (t : List Op) : Option Descriptors := t.foldlM Descriptors.call {}

/-- The accepted descriptors that are not closed are the clients', and none was used
    after it was closed. -/
def Settled (s : Server) : Prop :=
  ∃ d, descriptors s.sys.trace = some d ∧ ∀ fd, fd ∈ d.live ↔ 0 ≤ fd ∧ fd ∈ s.client

/-- No client hung up before it had sent something. -/
def Spoken (t : List Op) : Prop := ∀ fd, Op.read fd [] ∉ t

section
variable {K : Kernel} {l : Listening} {s s' : Server} {i : Nat} {sockfd : Fd}

theorem descriptors_append {t : List Op} {d : Descriptors} (h : descriptors t = some d)
    (u : List Op) : descriptors (t ++ u) = u.foldlM Descriptors.call d := by
  rw [descriptors, List.foldlM_append]
  show (descriptors t).bind _ = _
  rw [h]
  rfl

theorem Spoken.append {t u : List Op} (h : Spoken t) (hu : ∀ fd, Op.read fd [] ∉ u) :
    Spoken (t ++ u) := by
  intro fd hin
  rcases List.mem_append.mp hin with hin | hin
  · exact h fd hin
  · exact hu fd hin

/-- What a round of `httpserver.c` keeps. -/
structure Serving (l : Listening) (d : Descriptors) (s : Server) : Prop extends Wired l s where
  stdout_mem : stdoutFd ∈ s.sys.opened
  stdout_notMem : stdoutFd ∉ s.client
  spoken : Spoken s.sys.trace
  descriptors_eq : descriptors s.sys.trace = some d
  live_iff : ∀ fd, fd ∈ d.live ↔ 0 ≤ fd ∧ fd ∈ s.client
  closed : ∀ fd ∈ d.closed, fd ∉ s.sys.opened

/-- The run has ended: no closed descriptor was used, or a client hung up early. -/
def SettledAtExit (x : Exit) : Prop := (descriptors x.sys.trace).isSome ↔ Spoken x.sys.trace

theorem settledAtExit {t u : List Op} {d d' : Descriptors} (h : descriptors t = some d)
    (hu : u.foldlM Descriptors.call d = some d') (hspoken : Spoken t)
    (hquiet : ∀ fd, Op.read fd [] ∉ u) : (descriptors (t ++ u)).isSome ↔ Spoken (t ++ u) := by
  refine ⟨fun _ => ?_, fun _ => ?_⟩
  · exact hspoken.append hquiet
  · rw [descriptors_append h, hu]
    rfl

theorem Serving.call {d : Descriptors} (h : Serving l d s) (op : Op) (hop : d.call op = some d)
    (hquiet : ∀ fd, op ≠ .read fd []) (rset : Finset Fd) (nready : Int) :
    Serving l d { s with rset := rset, nready := nready, sys := s.sys.call op } :=
  { toWired := h.toWired.call op rset nready
    stdout_mem := h.stdout_mem
    stdout_notMem := h.stdout_notMem
    spoken := h.spoken.append fun fd hin => hquiet fd (List.mem_singleton.mp hin).symm
    descriptors_eq := by
      show descriptors (s.sys.trace ++ [op]) = some d
      rw [descriptors_append h.descriptors_eq, List.foldlM_cons, hop]
      rfl
    live_iff := h.live_iff
    closed := h.closed }

theorem serving_init (hout : stdoutFd ∈ l.opened) : Serving l {} (init l) where
  toWired := wired_init l
  stdout_mem := hout
  stdout_notMem := fun hin => absurd (List.eq_of_mem_replicate hin) (by decide)
  spoken := fun fd hin => Op.noConfusion (List.mem_singleton.mp hin)
  descriptors_eq := rfl
  live_iff := by
    intro fd
    constructor
    · exact fun hin => absurd hin (Finset.notMem_empty fd)
    · intro hin
      have hneg := List.eq_of_mem_replicate hin.2
      rw [hneg] at hin
      exact absurd hin.1 (by decide)
  closed := fun fd hin => absurd hin (Finset.notMem_empty fd)

theorem serving_newClient {d : Descriptors} (h : Serving l d s) :
    Holds (fun s' => ∃ d', Serving l d' s') SettledAtExit (s.newClient K) := by
  apply newClient_holds
  · intro connfd i s' _ hj
    have hstdout := hj.own (by decide) h.stdout_mem h.stdout_notMem
    refine ⟨{ live := insert connfd d.live, closed := d.closed.erase connfd }, ?_⟩
    exact
      { toWired := h.toWired.joined hj
        stdout_mem := hstdout.1
        stdout_notMem := hstdout.2
        spoken := by
          rw [hj.trace, List.append_assoc]
          exact h.spoken.append fun fd hin => by simp at hin
        descriptors_eq := by
          rw [hj.trace, List.append_assoc, descriptors_append h.descriptors_eq]
          rfl
        live_iff := by
          intro fd
          rw [Finset.mem_insert, h.live_iff]
          refine ⟨fun hcase => ?_, fun hboth => ?_⟩
          · rcases hcase with rfl | ⟨hnonneg, hin⟩
            · exact ⟨hj.nonneg, (hj.mem_client hj.nonneg).mpr (.inl rfl)⟩
            · exact ⟨hnonneg, (hj.mem_client hnonneg).mpr (.inr hin)⟩
          · obtain ⟨hnonneg, hin⟩ := hboth
            exact ((hj.mem_client hnonneg).mp hin).imp_right fun hin => ⟨hnonneg, hin⟩
        closed := by
          intro fd hin
          obtain ⟨hne, hin⟩ := Finset.mem_erase.mp hin
          rw [hj.opened, Finset.mem_insert, not_or]
          exact ⟨hne, h.closed fd hin⟩ }
  · intro _
    exact ⟨fun _ => h.spoken, fun _ => by rw [h.descriptors_eq]; rfl⟩
  · intro connfd _ _ _
    exact settledAtExit h.descriptors_eq rfl h.spoken fun fd hin => by simp at hin

/-- After an answer the descriptor is closed, and its entry is free again. -/
theorem serving_answered {d : Descriptors} (h : Serving l d s) (hi : s.client[i]? = some sockfd)
    (hfd : 0 ≤ sockfd) {bytes : Bytes} (hbytes : bytes ≠ []) :
    ∃ d', Serving l d' (answered i sockfd bytes s) := by
  have hin : sockfd ∈ s.client := List.mem_of_getElem? hi
  have hopen : sockfd ∈ s.sys.opened := h.opened _ ((h.allset_iff _).mpr (.inr ⟨hfd, hin⟩))
  have hsock : sockfd ∉ d.closed := fun hclosed => h.closed _ hclosed hopen
  have hout : stdoutFd ∉ d.closed := fun hclosed => h.closed _ hclosed h.stdout_mem
  have hne : stdoutFd ≠ sockfd := fun heq => h.stdout_notMem (heq ▸ hin)
  have hspoken : ∀ fd, Op.read fd [] ≠ .read sockfd bytes :=
    fun fd heq => hbytes (Op.read.inj heq).2.symm
  refine ⟨{ live := d.live.erase sockfd, closed := insert sockfd d.closed }, ?_⟩
  have hclient : ∀ fd, 0 ≤ fd → (fd ∈ s.client.set i (-1) ↔ fd ≠ sockfd ∧ fd ∈ s.client) :=
    fun fd hnonneg =>
      mem_set_taken hi (fun k hk => h.distinct k i sockfd hk hi hfd) hnonneg
  exact
    { toWired := h.toWired.served (served_answered i sockfd bytes s) hi hfd
      stdout_mem := Finset.mem_erase_of_ne_of_mem hne h.stdout_mem
      stdout_notMem := fun hin =>
        h.stdout_notMem ((hclient stdoutFd (by decide)).mp hin).2
      spoken := h.spoken.append fun fd hin => by simp [hspoken] at hin
      descriptors_eq := by
        show descriptors (s.sys.trace ++ _) = _
        rw [descriptors_append h.descriptors_eq]
        simp [Descriptors.call, hsock, hout]
      live_iff := by
        intro fd
        rw [Finset.mem_erase, h.live_iff]
        refine ⟨fun hleft => ?_, fun hboth => ?_⟩
        · obtain ⟨hneq, hnonneg, hmem⟩ := hleft
          exact ⟨hnonneg, (hclient fd hnonneg).mpr ⟨hneq, hmem⟩⟩
        · obtain ⟨hnonneg, hmem⟩ := hboth
          obtain ⟨hneq, hmem⟩ := (hclient fd hnonneg).mp hmem
          exact ⟨hneq, hnonneg, hmem⟩
      closed := by
        intro fd hmem hleft
        obtain ⟨hneq, hleft⟩ := Finset.mem_erase.mp hleft
        rcases Finset.mem_insert.mp hmem with heq | hmem
        · exact hneq heq
        · exact h.closed fd hmem hleft }

/-- A request is answered, and its client is gone; or the run ends. -/
theorem serving_serve {d : Descriptors} (h : Serving l d s) (hi : s.client[i]? = some sockfd)
    (hfd : 0 ≤ sockfd) :
    Holds (fun s' => ∃ d', Serving l d' s') SettledAtExit (httpServe K i sockfd s) := by
  have hin : sockfd ∈ s.client := List.mem_of_getElem? hi
  have hopen : sockfd ∈ s.sys.opened := h.opened _ ((h.allset_iff _).mpr (.inr ⟨hfd, hin⟩))
  have hsock : sockfd ∉ d.closed := fun hclosed => h.closed _ hclosed hopen
  have hout : stdoutFd ∉ d.closed := fun hclosed => h.closed _ hclosed h.stdout_mem
  have hspoken : ∀ {bytes : Bytes}, bytes ≠ [] → ∀ fd, Op.read fd [] ≠ .read sockfd bytes :=
    fun hbytes fd heq => hbytes (Op.read.inj heq).2.symm
  refine httpServe_holds ?_ ?_ ?_ ?_ ?_ ?_
  · exact fun bytes hbytes => serving_answered h hi hfd hbytes
  · exact ⟨fun _ => h.spoken, fun _ => by rw [h.descriptors_eq]; rfl⟩
  · exact fun hclosed => absurd hopen hclosed
  · intro bytes sent hbytes
    refine settledAtExit h.descriptors_eq (?_ : _ = some d) h.spoken ?_
    · simp [Descriptors.call, hsock, hout]
    · intro fd hmem
      simp [hspoken hbytes] at hmem
  · intro bytes sent hbytes
    refine settledAtExit h.descriptors_eq (?_ : _ = some d) h.spoken ?_
    · simp [Descriptors.call, hsock, hout]
    · intro fd hmem
      simp [hspoken hbytes] at hmem
  · -- the hang-up comes before the parser's run and the answer
    refine ⟨fun hsome => ?_, fun hspoken' => ?_⟩
    · rw [descriptors_append h.descriptors_eq] at hsome
      simp [Descriptors.call, hsock] at hsome
    · exact absurd (List.mem_append_right _ List.mem_cons_self) (hspoken' sockfd)

end

/-- A client connects, and hangs up. -/
def silent : Kernel := .scripted (fun k fd => if k < 5 then fd = 3 else fd = 4) fun _ => []

end Server

end RubbishStore.Socket
