import RubbishStore.Socket.SelectSets

/- What the clients of `chatserver.c` are sent. `connections` cuts a trace into one
   client's connections, from `Accept` to `Close`. Over each of them the client is
   written what was read meanwhile from the others, read by read and in that order
   (`Heard`); its own messages and the hang-ups are in no one's share. -/
namespace RubbishStore.Socket
open RubbishStore.Lib

/-- The calls made while a client was connected: in the connections that are over,
    and in the one that is not. -/
structure Visits where
  past : List (List Op) := []
  current : Option (List Op) := none

namespace Visits

def all (v : Visits) : List (List Op) := v.past ++ v.current.toList

def note (v : Visits) (op : Op) : Visits := { v with current := v.current.map (· ++ [op]) }

def call (c : Fd) (v : Visits) : Op → Visits
  | .accept fd => if fd = c then { past := v.all, current := some [] } else v.note (.accept fd)
  | .close fd => if fd = c then { past := v.all, current := none } else v.note (.close fd)
  | op => v.note op

end Visits

def visits (c : Fd) (t : List Op) : Visits := t.foldl (Visits.call c) {}

/-- The connections of a client, each with the calls made from its `Accept` on,
    up to its `Close`. -/
def connections (c : Fd) (t : List Op) : List (List Op) := (visits c t).all

/-- What was read from the others and had a first byte other than NUL. -/
def relayed (c : Fd) (t : List Op) : List Bytes :=
  t.filterMap fun
    | .read fd bytes => if fd ≠ c ∧ bytes.headD 0 ≠ 0 then some bytes else none
    | _ => none

/-- The client was written what was read from the others. -/
def Heard (c : Fd) (t : List Op) : Prop := writes c t = relayed c t

/-- Every connection is heard, and the client is in `client` while it is connected. -/
structure Balanced (c : Fd) (client : List Int) (t : List Op) : Prop where
  heard : ∀ u ∈ connections c t, Heard c u
  connected : (visits c t).current.isSome ↔ c ∈ client

section
variable {c : Fd} {client client' : List Int} {t ops : List Op}

@[simp] theorem relayed_append (t u : List Op) :
    relayed c (t ++ u) = relayed c t ++ relayed c u := List.filterMap_append

theorem relayed_read {fd : Fd} {bytes : Bytes} :
    relayed c [.read fd bytes] = if fd ≠ c ∧ bytes.headD 0 ≠ 0 then [bytes] else [] := by
  by_cases h : fd ≠ c ∧ bytes.headD 0 ≠ 0
  · rw [if_pos h]
    exact List.filterMap_cons_some (if_pos h)
  · rw [if_neg h]
    exact List.filterMap_cons_none (if_neg h)

theorem visits_concat (t : List Op) (op : Op) :
    visits c (t ++ [op]) = (visits c t).call c op := List.foldl_concat _ _ _ _

/-- Calls that neither begin nor end a connection of the client. -/
def Inside (c : Fd) (ops : List Op) : Prop := ∀ op ∈ ops, op ≠ .accept c ∧ op ≠ .close c

theorem Visits.call_inside {v : Visits} {op : Op} (haccept : op ≠ .accept c)
    (hclose : op ≠ .close c) : v.call c op = v.note op := by
  cases op with
  | accept fd => exact if_neg fun h => haccept (congrArg Op.accept h)
  | close fd => exact if_neg fun h => hclose (congrArg Op.close h)
  | _ => rfl

theorem visits_inside (h : Inside c ops) (t : List Op) :
    visits c (t ++ ops) = { visits c t with current := (visits c t).current.map (· ++ ops) } := by
  induction ops generalizing t with
  | nil => simp
  | cons op ops ih =>
    obtain ⟨haccept, hclose⟩ := h op List.mem_cons_self
    rw [List.append_cons, ih (fun op' hop => h op' (List.mem_cons_of_mem _ hop)), visits_concat,
      Visits.call_inside haccept hclose]
    cases hcurrent : (visits c t).current with
    | none => simp [Visits.note, hcurrent]
    | some u => simp [Visits.note, hcurrent]

/-- While the client is connected, it is written what is read from the others. -/
theorem Balanced.inside (h : Balanced c client t) (hinside : Inside c ops)
    (hheard : c ∈ client → Heard c ops) : Balanced c client (t ++ ops) := by
  have hvisits := visits_inside hinside t
  constructor
  · intro u hu
    rw [connections, hvisits, Visits.all, List.mem_append] at hu
    rcases hu with hpast | hnow
    · exact h.heard u (List.mem_append_left _ hpast)
    · obtain ⟨u', hcurrent, rfl⟩ := Option.map_eq_some_iff.mp (Option.mem_toList.mp hnow)
      have hu' : Heard c u' :=
        h.heard u' (List.mem_append_right _ (Option.mem_toList.mpr hcurrent))
      have hops := hheard (h.connected.mp (by rw [hcurrent]; rfl))
      show writes c (u' ++ ops) = relayed c (u' ++ ops)
      rw [writes_append, relayed_append, hu', hops]
  · rw [hvisits, Option.isSome_map]
    exact h.connected

/-- A call that is neither the client's `Accept` nor its `Close`, and no message to it. -/
theorem Balanced.quiet (h : Balanced c client t) (op : Op) (haccept : op ≠ .accept c)
    (hclose : op ≠ .close c) (hheard : Heard c [op]) : Balanced c client (t ++ [op]) := by
  refine h.inside ?_ fun _ => hheard
  intro op' hop
  obtain rfl := List.mem_singleton.mp hop
  exact ⟨haccept, hclose⟩

theorem Balanced.congr (h : Balanced c client t) (hclient : c ∈ client ↔ c ∈ client') :
    Balanced c client' t := ⟨h.heard, h.connected.trans hclient⟩

theorem Balanced.accept (h : Balanced c client t) (hclient : c ∈ client') :
    Balanced c client' (t ++ [.accept c]) := by
  have hvisits : visits c (t ++ [.accept c]) = { past := connections c t, current := some [] } := by
    rw [visits_concat]
    exact if_pos rfl
  constructor
  · intro u hu
    rw [connections, hvisits, Visits.all, List.mem_append] at hu
    rcases hu with hpast | hnow
    · exact h.heard u hpast
    · obtain rfl := List.mem_singleton.mp hnow
      rfl
  · rw [hvisits]
    exact ⟨fun _ => hclient, fun _ => rfl⟩

theorem Balanced.close (h : Balanced c client t) (hclient : c ∉ client') :
    Balanced c client' (t ++ [.close c]) := by
  have hvisits : visits c (t ++ [.close c]) = { past := connections c t, current := none } := by
    rw [visits_concat]
    exact if_pos rfl
  constructor
  · intro u hu
    rw [connections, hvisits, Visits.all, Option.toList_none, List.append_nil] at hu
    exact h.heard u hu
  · rw [hvisits]
    exact ⟨fun hsome => absurd hsome Bool.false_ne_true, fun hin => absurd hin hclient⟩

end

namespace Server

section
variable {K : Kernel} {l : Listening} {s : Server} {c : Fd} {i : Nat} {sockfd : Fd}

/-! Whom the broadcast reaches. -/

/-- The clients at the indices that are sent a message. -/
def listeners (i : Nat) (s : Server) (js : List Nat) : List Fd :=
  (js.filter fun j => s.client.getD j (-1) > 0 ∧ i ≠ j ∧ cstring s.buf ≠ []).map
    fun j => s.client.getD j (-1)

theorem broadcast_holds {bytes : Bytes} (hbytes : bytes ≠ []) (js : List Nat) (sys : Sys) :
    Holds
      (fun sys' => sys'.opened = sys.opened ∧
        sys'.trace = sys.trace ++ (listeners i s js).map fun fd => .write fd bytes)
      (fun x => x.message ∈ writeErrors) (broadcast K i bytes s js sys) := by
  induction js generalizing sys with
  | nil => exact ⟨rfl, (List.append_nil _).symm⟩
  | cons j js ih =>
    rw [broadcast]
    apply Holds.ite
    · intro hcond
      have hcons : listeners i s (j :: js) = s.client.getD j (-1) :: listeners i s js := by
        rw [listeners, List.filter_cons_of_pos (by exact decide_eq_true hcond),
          List.map_cons, listeners]
      refine Holds.bind (writen_holds
        (P := fun sys' => sys' = sys.call (.write (s.client.getD j (-1)) bytes))
        (fun hnil => absurd hnil hbytes) (fun _ _ => rfl)
        fun _ _ _ => List.mem_cons_of_mem _ List.mem_cons_self) ?_
      intro sys' heq
      obtain rfl := heq
      refine Holds.mono (ih _) ?_ fun _ h => h
      intro sys'' hparts
      obtain ⟨hopened, htrace⟩ := hparts
      refine ⟨hopened, ?_⟩
      rw [htrace, hcons, Sys.trace_call, List.map_cons, ← List.append_cons]
    · intro hcond
      have hcons : listeners i s (j :: js) = listeners i s js := by
        rw [listeners, List.filter_cons_of_neg (by simpa using hcond), listeners]
      rw [hcons]
      exact ih sys

theorem writes_map (c : Fd) (fds : List Fd) (bytes : Bytes) :
    writes c (fds.map fun fd => .write fd bytes) = List.replicate (fds.count c) bytes := by
  induction fds with
  | nil => rfl
  | cons fd fds ih =>
    show writes c ([.write fd bytes] ++ _) = _
    rw [writes_append, writes_write, ih]
    by_cases h : fd = c
    · rw [if_pos h, h, List.count_cons_self, List.replicate_succ]
      rfl
    · rw [if_neg h, List.count_cons_of_ne h, List.nil_append]

theorem relayed_map (c : Fd) (fds : List Fd) (bytes : Bytes) :
    relayed c (fds.map fun fd => .write fd bytes) = [] := by
  induction fds with
  | nil => rfl
  | cons fd fds ih => exact ih

/-- A connected client is sent the message once, unless it is the sender's own or
    begins with a NUL. -/
theorem Wired.count_listeners (h : Wired l s) (hi : s.client[i]? = some sockfd) (hc : 0 < c)
    (hin : c ∈ s.client) :
    (listeners i s s.indices).count c = if sockfd ≠ c ∧ cstring s.buf ≠ [] then 1 else 0 := by
  -- no client has two entries
  have hnodup : (listeners i s s.indices).Nodup := by
    apply List.Nodup.map_on
    · intro j hj k hk heq
      obtain ⟨-, hcond⟩ := List.mem_filter.mp hj
      exact h.getD_inj (le_of_lt (of_decide_eq_true hcond).1) heq
    · exact List.nodup_range.filter _
  obtain ⟨j, hj⟩ := List.mem_iff_getElem?.mp hin
  have hget : s.client.getD j (-1) = c := by
    rw [List.getD_eq_getElem?_getD, hj, Option.getD_some]
  have hmem : c ∈ listeners i s s.indices ↔ sockfd ≠ c ∧ cstring s.buf ≠ [] := by
    rw [listeners, List.mem_map]
    refine ⟨fun hlistens => ?_, fun hboth => ?_⟩
    · obtain ⟨k, hk, hkc⟩ := hlistens
      obtain ⟨-, hcond⟩ := List.mem_filter.mp hk
      obtain ⟨hpos, hne, hbuf⟩ := of_decide_eq_true hcond
      refine ⟨?_, hbuf⟩
      intro heq
      obtain rfl := heq
      exact hne (h.distinct i k sockfd hi (hkc ▸ getElem?_of_getD (by omega)) (le_of_lt hc))
    · obtain ⟨hne, hbuf⟩ := hboth
      refine ⟨j, List.mem_filter.mpr ⟨h.mem_indices hj (le_of_lt hc), ?_⟩, hget⟩
      refine decide_eq_true ⟨hget.symm ▸ hc, ?_, hbuf⟩
      intro heq
      obtain rfl := heq
      rw [hi] at hj
      exact hne (Option.some.inj hj)
  rw [hnodup.count]
  simp only [hmem]

/-! The steps of a round. -/

/-- What `strlen(buf) > 0` tests. -/
theorem cstring_overwrite (buf : Bytes) {bytes : Bytes} (hbytes : bytes ≠ []) :
    cstring (overwrite buf bytes) ≠ [] ↔ bytes.headD 0 ≠ 0 := by
  cases bytes with
  | nil => exact absurd rfl hbytes
  | cons b bytes =>
    show List.takeWhile _ (b :: _) ≠ [] ↔ b ≠ 0
    by_cases hb : b = 0
    · rw [List.takeWhile_cons_of_neg (by simpa using hb)]
      exact ⟨fun h => absurd rfl h, fun h => absurd hb h⟩
    · rw [List.takeWhile_cons_of_pos (by simpa using hb)]
      exact ⟨fun _ => hb, fun _ => List.cons_ne_nil _ _⟩

/-- A run that has ended, but not in a failed write, is heard to its end. -/
def HeardAtExit (c : Fd) (x : Exit) : Prop :=
  x.message ∉ writeErrors → ∀ u ∈ connections c x.sys.trace, Heard c u

/-- A client hangs up. -/
theorem hangUp_balanced (h : Wired l s) (hb : Balanced c s.client s.sys.trace) (hc : 0 < c)
    (hi : s.client[i]? = some sockfd) (hfd : 0 ≤ sockfd) :
    Holds (fun s' => Balanced c s'.client s'.sys.trace) (HeardAtExit c) (hangUp i sockfd s) := by
  have hopen : sockfd ∈ s.sys.opened :=
    h.opened _ ((h.allset_iff _).mpr (.inr ⟨hfd, List.mem_of_getElem? hi⟩))
  have hclient : c ∈ s.client.set i (-1) ↔ c ≠ sockfd ∧ c ∈ s.client :=
    mem_set_taken hi (fun k hk => h.distinct k i sockfd hk hi hfd) (le_of_lt hc)
  have hclosed : Balanced c (s.client.set i (-1)) (s.sys.trace ++ [.close sockfd]) := by
    by_cases heq : sockfd = c
    · -- the client itself has gone
      subst heq
      exact hb.close fun hin => (hclient.mp hin).1 rfl
    · refine (hb.quiet (.close sockfd) Op.noConfusion ?_ rfl).congr ?_
      · exact fun hclose => heq (Op.close.inj hclose)
      · exact ⟨fun hin => hclient.mpr ⟨Ne.symm heq, hin⟩, fun hin => (hclient.mp hin).2⟩
  rw [hangUp, close, if_pos hopen]
  exact hclosed.quiet (.fdClr sockfd) Op.noConfusion Op.noConfusion rfl

/-- A message is read, sent to the others and shown. -/
theorem heard_message {bytes : Bytes} (h : Wired l s) (hi : s.client[i]? = some sockfd)
    (hc : 0 < c) (hin : c ∈ s.client) (hout : stdoutFd ∉ s.client)
    (hbuf : cstring s.buf ≠ [] ↔ bytes.headD 0 ≠ 0) :
    Heard c (.read sockfd bytes :: (listeners i s s.indices).map (fun fd => .write fd bytes) ++
      [.write stdoutFd bytes]) := by
  have hne : stdoutFd ≠ c := fun heq => hout (heq ▸ hin)
  calc writes c (.read sockfd bytes ::
          (listeners i s s.indices).map (fun fd => .write fd bytes) ++ [.write stdoutFd bytes])
      = List.replicate ((listeners i s s.indices).count c) bytes := by
        rw [writes_append, writes_write, if_neg hne, List.append_nil, ← writes_map]
        rfl
    _ = if sockfd ≠ c ∧ bytes.headD 0 ≠ 0 then [bytes] else [] := by
        rw [h.count_listeners hi hc hin]
        simp only [hbuf]
        split <;> rfl
    _ = relayed c (.read sockfd bytes ::
          (listeners i s s.indices).map (fun fd => .write fd bytes) ++ [.write stdoutFd bytes]) := by
        rw [relayed_append]
        show _ = relayed c ([.read sockfd bytes] ++ _) ++ []
        rw [List.append_nil, relayed_append, relayed_map, List.append_nil, relayed_read]

theorem chatServe_balanced (h : Wired l s) (hb : Balanced c s.client s.sys.trace) (hc : 0 < c)
    (hout : stdoutFd ∉ s.client) (hi : s.client[i]? = some sockfd) (hfd : 0 ≤ sockfd) :
    Holds (fun s' => Balanced c s'.client s'.sys.trace) (HeardAtExit c)
      (chatServe K i sockfd s) := by
  have hopen : sockfd ∈ s.sys.opened :=
    h.opened _ ((h.allset_iff _).mpr (.inr ⟨hfd, List.mem_of_getElem? hi⟩))
  have hfailed : ∀ {sys : Sys}, HeardAtExit c ⟨some "writen error", sys⟩ := fun hmessage =>
    absurd (List.mem_cons_of_mem _ List.mem_cons_self) hmessage
  rw [chatServe]
  refine Holds.bind (read_holds (P := fun r => r.2 = s.sys.call (.read sockfd r.1))
    (fun _ _ => rfl) (fun _ => hb.heard) fun hclosed => absurd hopen hclosed) ?_
  intro r hsys
  obtain ⟨bytes, sys⟩ := r
  obtain rfl : sys = s.sys.call (.read sockfd bytes) := hsys
  by_cases hbytes : bytes = []
  · -- nothing is sent, and nothing is shown
    subst hbytes
    refine Holds.bind (hangUp_balanced { h with } ?_ hc hi hfd) fun s' hs' => hs'
    apply hb.quiet (.read sockfd []) Op.noConfusion Op.noConfusion
    show ([] : List Bytes) = relayed c [.read sockfd []]
    rw [relayed_read, if_neg fun hcond => hcond.2 rfl]
  · -- a message: it goes to the listeners, then to standard output
    have hbuf := cstring_overwrite s.buf hbytes
    have hw : Wired l { s with buf := overwrite s.buf bytes } := { h with }
    refine Holds.bind (P := fun s' => s'.client = s.client ∧ s'.sys.trace = s.sys.trace ++
      .read sockfd bytes :: (listeners i { s with buf := overwrite s.buf bytes } s.indices).map
        fun fd => .write fd bytes) ?_ ?_
    · rw [if_neg hbytes]
      refine Holds.bind (Holds.mono (broadcast_holds hbytes _ _) (fun _ h => h) ?_) ?_
      · exact fun x hx hmessage => absurd hx hmessage
      · intro sys' hparts
        obtain ⟨-, htrace⟩ := hparts
        refine ⟨rfl, ?_⟩
        show sys'.trace = _
        rw [htrace, Sys.trace_call, ← List.append_cons]
        rfl
    · intro s' hs
      obtain ⟨hclient, htrace⟩ := hs
      refine Holds.bind (writen_holds
        (P := fun sys' => sys' = s'.sys.call (.write stdoutFd bytes))
        (fun hnil => absurd hnil hbytes) (fun _ _ => rfl) fun _ _ _ => hfailed) ?_
      intro sys' heq
      obtain rfl := heq
      show Balanced c s'.client (s'.sys.trace ++ _)
      rw [hclient, htrace, List.append_assoc]
      refine hb.inside ?_ fun hin => heard_message hw hi hc hin hout hbuf
      intro op hop
      rcases List.mem_append.mp hop with hop | hop
      · rcases List.mem_cons.mp hop with rfl | hop
        · exact ⟨Op.noConfusion, Op.noConfusion⟩
        · obtain ⟨fd, -, rfl⟩ := List.mem_map.mp hop
          exact ⟨Op.noConfusion, Op.noConfusion⟩
      · obtain rfl := List.mem_singleton.mp hop
        exact ⟨Op.noConfusion, Op.noConfusion⟩

/-- What a round of `chatserver.c` keeps. -/
structure Chatting (l : Listening) (c : Fd) (s : Server) : Prop extends Wired l s where
  stdout_mem : stdoutFd ∈ s.sys.opened
  stdout_notMem : stdoutFd ∉ s.client
  balanced : Balanced c s.client s.sys.trace

theorem chatting_init (hout : stdoutFd ∈ l.opened) (hc : 0 < c) : Chatting l c (init l) where
  toWired := wired_init l
  stdout_mem := hout
  stdout_notMem := fun hin => absurd (List.eq_of_mem_replicate hin) (by decide)
  balanced := by
    have hnil : Balanced c (init l).client [] := by
      refine ⟨fun u hu => absurd hu List.not_mem_nil, ?_⟩
      refine ⟨fun hsome => ?_, fun hin => ?_⟩
      · exact absurd hsome Bool.false_ne_true
      · rw [List.eq_of_mem_replicate hin] at hc
        exact absurd hc (by decide)
    exact hnil.quiet (.fdSet l.listenfd) Op.noConfusion Op.noConfusion rfl

theorem Chatting.call (h : Chatting l c s) (op : Op) (haccept : op ≠ .accept c)
    (hclose : op ≠ .close c) (hheard : Heard c [op]) (rset : Finset Fd) (nready : Int) :
    Chatting l c { s with rset := rset, nready := nready, sys := s.sys.call op } :=
  { toWired := h.toWired.call op rset nready
    stdout_mem := h.stdout_mem
    stdout_notMem := h.stdout_notMem
    balanced := h.balanced.quiet op haccept hclose hheard }

/-- A client connects. -/
theorem chatting_newClient (h : Chatting l c s) (hc : 0 < c) :
    Holds (Chatting l c) (HeardAtExit c) (s.newClient K) := by
  apply newClient_holds
  · intro connfd i s' _ hj
    have hstdout := hj.own (by decide) h.stdout_mem h.stdout_notMem
    have haccept : Balanced c s'.client (s.sys.trace ++ [.accept connfd]) := by
      by_cases heq : connfd = c
      · subst heq
        exact h.balanced.accept ((hj.mem_client hj.nonneg).mpr (.inl rfl))
      · refine (h.balanced.quiet (.accept connfd) ?_ Op.noConfusion rfl).congr ?_
        · exact fun heq' => heq (Op.accept.inj heq')
        · rw [hj.mem_client (le_of_lt hc), or_iff_right (Ne.symm heq)]
    exact
      { toWired := h.toWired.joined hj
        stdout_mem := hstdout.1
        stdout_notMem := hstdout.2
        balanced := by
          rw [hj.trace]
          exact haccept.quiet (.fdSet connfd) Op.noConfusion Op.noConfusion rfl }
  · exact fun _ _ => h.balanced.heard
  · -- the new connection has heard nothing, as it should
    intro connfd hnonneg hunused _ _
    by_cases heq : connfd = c
    · subst heq
      exact (h.balanced.accept (List.mem_singleton_self connfd)).heard
    · refine (h.balanced.quiet (.accept connfd) ?_ Op.noConfusion rfl).heard
      exact fun heq' => heq (Op.accept.inj heq')

/-- A ready client is served. -/
theorem chatting_serve (h : Chatting l c s) (hc : 0 < c) (hi : s.client[i]? = some sockfd)
    (hfd : 0 ≤ sockfd) : Holds (Chatting l c) (HeardAtExit c) (chatServe K i sockfd s) := by
  refine Holds.mono (Holds.and (chatServe_served i sockfd s)
    (chatServe_balanced h.toWired h.balanced hc h.stdout_notMem hi hfd)) ?_ fun _ hx => hx.2
  intro s' hboth
  obtain ⟨hserved, hbalanced⟩ := hboth
  have hne : stdoutFd ≠ sockfd := by
    intro heq
    obtain rfl := heq
    exact h.stdout_notMem (List.mem_of_getElem? hi)
  rcases hserved.client with ⟨hclient, -, hopened⟩ | ⟨hclient, -, hopened⟩
  · exact
      { toWired := h.toWired.served hserved hi hfd
        stdout_mem := by rw [hopened]; exact h.stdout_mem
        stdout_notMem := by rw [hclient]; exact h.stdout_notMem
        balanced := hbalanced }
  · exact
      { toWired := h.toWired.served hserved hi hfd
        stdout_mem := by
          rw [hopened]
          exact Finset.mem_erase_of_ne_of_mem hne h.stdout_mem
        stdout_notMem := by
          intro hin
          rw [hclient] at hin
          rcases List.mem_or_eq_of_mem_set hin with hin | heq
          · exact h.stdout_notMem hin
          · exact absurd heq (by decide)
        balanced := hbalanced }

end

/-- A client of `chatserver.c` is sent the messages of the others, in every run. -/
theorem chatserver_relays (K : Kernel) (l : Listening) (hout : stdoutFd ∈ l.opened) {c : Fd}
    (hc : 0 < c) (n : Nat) :
    Holds (fun s => ∀ u ∈ connections c s.sys.trace, writes c u = relayed c u)
      (fun x => x.message ∉ writeErrors → ∀ u ∈ connections c x.sys.trace, writes c u = relayed c u)
      (iterate (chatserver K l) n (init l)) := by
  have hkeeps : Keeps K l.listenfd (chatServe K) (Chatting l c) (HeardAtExit c) :=
    { isset := fun s fd h _ _ =>
        h.call (.fdIsset fd) Op.noConfusion Op.noConfusion rfl s.rset s.nready
      nready := fun s n h => { h with }
      serve := fun s i fd h hi hfd => chatting_serve h hc hi hfd
      polled := fun s rset h =>
        (h.call .select Op.noConfusion Op.noConfusion rfl rset rset.card).call
          (.fdIsset l.listenfd) Op.noConfusion Op.noConfusion rfl rset rset.card
      newClient := fun s h => chatting_newClient h hc
      error := fun s h _ => h.balanced.heard }
  refine Holds.mono (Holds.iterate (fun s hs => hkeeps.round hs) (chatting_init hout hc) n) ?_ ?_
  · exact fun s hs => hs.balanced.heard
  · exact fun x hx => hx

/-- Two clients connect, and the first one speaks. -/
def greeting : Kernel :=
  .scripted (fun k fd => if k < 9 then fd = 3 else fd = 4) fun _ => [104, 105]

theorem chatserver_relays_greeting :
    Holds (fun s => ∀ u ∈ connections 5 s.sys.trace, writes 5 u = relayed 5 u)
      (fun x => x.message ∉ writeErrors → ∀ u ∈ connections 5 x.sys.trace, writes 5 u = relayed 5 u)
      (iterate (chatserver greeting .usual) 3 (init .usual)) :=
  chatserver_relays greeting .usual (by decide) (by decide) 3

example : Holds (fun s => (connections 5 s.sys.trace).map (writes 5) = [[[104, 105]]])
    (fun _ => False) (iterate (chatserver greeting .usual) 3 (init .usual)) := by
  decide

end Server

end RubbishStore.Socket
