import RubbishStore.Socket.HttpServer

/- The descriptors that the select servers give to `FD_SET`, `FD_CLR` and `FD_ISSET`.
   An `fd_set` has FD_SETSIZE bits, and "too many clients" counts the entries of
   `client`, of which there are as many. But the process holds other descriptors,
   too: there is an entry left when the numbers below FD_SETSIZE are used up. The
   bound is kept as long as a connection is taken while one of these is unused
   (`HasRoom`), and no longer. -/
namespace RubbishStore.Socket
open RubbishStore.Lib

/-- The descriptor that a macro is given. -/
def setFd : Op → Option Fd
  | .fdSet fd => some fd
  | .fdClr fd => some fd
  | .fdIsset fd => some fd
  | _ => none

/-- `accept` answers the least descriptor that is not open. -/
def Kernel.Lowest (K : Kernel) : Prop :=
  ∀ k opened fd, K.accept k opened = some fd → ∀ d, 0 ≤ d → d < fd → d ∈ opened

theorem lowest_scripted (ready : Nat → Fd → Bool) (data : Nat → Bytes) :
    (Kernel.scripted ready data).Lowest := by
  intro k opened fd haccept
  obtain rfl := Option.some.inj haccept
  exact (lowestUnused_spec opened).2.2

namespace Server

/-- All of them lie in an `fd_set`. -/
def InSets (l : Listening) (t : List Op) : Prop :=
  ∀ op ∈ t, ∀ fd, setFd op = some fd → fd < l.fdSetsize

/-- In a run of any length. -/
def StaysInSets (l : Listening) (server : Server → Except Exit Server) : Prop :=
  ∀ n, Holds (fun s => InSets l s.sys.trace) (fun x => InSets l x.sys.trace)
    (iterate server n (init l))

/-- The round that follows takes a connection: `Select` reports it, and `Accept`
    succeeds. -/
def Takes (K : Kernel) (l : Listening) (s : Server) : Prop :=
  (∃ ready, K.select s.sys.trace.length = some ready ∧ ready l.listenfd = true) ∧
    (K.accept (s.sys.trace.length + 2) s.sys.opened).isSome

/-- If it does, and has an entry for it, a descriptor below FD_SETSIZE is unused. -/
def HasRoom (K : Kernel) (l : Listening) (s : Server) : Prop :=
  Takes K l s → -1 ∈ s.client → ∃ d, 0 ≤ d ∧ d < (l.fdSetsize : Fd) ∧ d ∉ s.sys.opened

/-- Before every round of a run. -/
def StaysRoomy (K : Kernel) (l : Listening) (server : Server → Except Exit Server) : Prop :=
  l.listenfd < l.fdSetsize ∧
    ∀ n, Holds (HasRoom K l) (fun _ => True) (iterate server n (init l))

/-! A client that is served is the only one given to a macro. -/

/-- Calls were added, with no descriptor but this one given to a macro. -/
def Touched (fd : Fd) (t t' : List Op) : Prop :=
  ∃ ops, t' = t ++ ops ∧ ∀ op ∈ ops, ∀ fd', setFd op = some fd' → fd' = fd

/-- So it is served. -/
def Touches (serve : Nat → Fd → Server → Except Exit Server) : Prop :=
  ∀ i fd s, Holds (fun s' => Touched fd s.sys.trace s'.sys.trace)
    (fun x => Touched fd s.sys.trace x.sys.trace) (serve i fd s)

section
variable {K : Kernel} {l : Listening} {s : Server} {i : Nat} {fd sockfd : Fd} {t t' : List Op}
  {sys : Sys}

theorem Touched.refl (fd : Fd) (t : List Op) : Touched fd t t :=
  ⟨[], (List.append_nil t).symm, fun _ hop => absurd hop List.not_mem_nil⟩

theorem Touched.call (h : Touched fd t t') (op : Op)
    (hop : ∀ fd', setFd op = some fd' → fd' = fd) : Touched fd t (t' ++ [op]) := by
  obtain ⟨ops, rfl, hops⟩ := h
  refine ⟨ops ++ [op], List.append_assoc _ _ _, ?_⟩
  intro op' hmem
  rcases List.mem_append.mp hmem with hmem | hmem
  · exact hops op' hmem
  · rw [List.mem_singleton.mp hmem]
    exact hop

/-- A call that is not a macro's. -/
theorem Touched.other (h : Touched fd t t') (op : Op) (hop : setFd op = none) :
    Touched fd t (t' ++ [op]) :=
  h.call op fun fd' hfd => by rw [hop] at hfd; exact absurd hfd (Option.some_ne_none fd').symm

theorem touched_writen (h : Touched fd t sys.trace) (fd' : Fd) (bytes : Bytes) :
    Holds (fun sys' => Touched fd t sys'.trace) (fun x => Touched fd t x.sys.trace)
      (writen K sys fd' bytes) := by
  apply writen_holds
  · intro _
    exact h
  · intro _ _
    exact h.other _ rfl
  · intro _ sent _
    exact h.other _ rfl

theorem touched_broadcast (h : Touched fd t sys.trace) (bytes : Bytes) (js : List Nat) :
    Holds (fun sys' => Touched fd t sys'.trace) (fun x => Touched fd t x.sys.trace)
      (broadcast K i bytes s js sys) := by
  induction js generalizing sys with
  | nil => exact h
  | cons j js ih =>
    rw [broadcast]
    apply Holds.ite
    · intro _
      exact Holds.bind (touched_writen h _ _) fun sys' h' => ih h'
    · intro _
      exact ih h

theorem touched_hangUp (h : Touched sockfd t s.sys.trace) :
    Holds (fun s' => Touched sockfd t s'.sys.trace) (fun x => Touched sockfd t x.sys.trace)
      (hangUp i sockfd s) := by
  have hclose := h.other (.close sockfd) rfl
  rw [hangUp, close]
  refine Holds.bind (P := fun sys' => sys'.trace = s.sys.trace ++ [.close sockfd]) ?_ ?_
  · apply Holds.ite
    · intro _
      rfl
    · intro _
      exact hclose
  · intro sys' htrace
    show Touched sockfd t (sys'.trace ++ [.fdClr sockfd])
    rw [htrace]
    exact hclose.call _ fun fd' hfd => (Option.some.inj hfd).symm

theorem touched_read {f : Bytes × Sys → Except Exit Server}
    (hf : ∀ bytes, Touched fd s.sys.trace (s.sys.call (.read sockfd bytes)).trace →
      Holds (fun s' => Touched fd s.sys.trace s'.sys.trace)
        (fun x => Touched fd s.sys.trace x.sys.trace)
        (f (bytes, s.sys.call (.read sockfd bytes)))) :
    Holds (fun s' => Touched fd s.sys.trace s'.sys.trace)
      (fun x => Touched fd s.sys.trace x.sys.trace) (read K s.sys sockfd >>= f) := by
  refine Holds.bind (read_holds (P := fun r => r.2 = s.sys.call (.read sockfd r.1))
    (fun _ _ => rfl) (Touched.refl _ _) fun _ => (Touched.refl _ _).other _ rfl) ?_
  intro r hsys
  obtain ⟨bytes, sys⟩ := r
  obtain rfl : sys = s.sys.call (.read sockfd bytes) := hsys
  exact hf bytes ((Touched.refl _ _).other _ rfl)

theorem selectServe_touches : Touches (selectServe K) := by
  intro i sockfd s
  apply touched_read
  intro bytes hread
  apply Holds.ite
  · intro _
    exact touched_hangUp hread
  · intro _
    exact Holds.bind (touched_writen hread sockfd bytes) fun sys h => h

theorem chatServe_touches : Touches (chatServe K) := by
  intro i sockfd s
  apply touched_read
  intro bytes hread
  refine Holds.bind (P := fun s' => Touched sockfd s.sys.trace s'.sys.trace) ?_ ?_
  · apply Holds.ite
    · intro _
      exact touched_hangUp hread
    · intro _
      exact Holds.bind (touched_broadcast hread bytes _) fun sys h => h
  · intro s' h
    exact Holds.bind (touched_writen h stdoutFd bytes) fun sys h => h

theorem httpServe_touches : Touches (httpServe K) := by
  intro i sockfd s
  apply httpServe_holds
  · intro bytes _
    exact ⟨_, rfl, by simp [setFd]⟩
  · exact Touched.refl _ _
  · intro _
    exact (Touched.refl _ _).other _ rfl
  · intro bytes sent _
    exact ⟨_, rfl, by simp [setFd]⟩
  · intro bytes sent _
    exact ⟨_, rfl, by simp [setFd]⟩
  · exact ⟨_, rfl, by simp [setFd]⟩

/-! A run that stays roomy stays in the sets. -/

theorem InSets.call (h : InSets l t) (op : Op)
    (hop : ∀ fd, setFd op = some fd → fd < l.fdSetsize) : InSets l (t ++ [op]) := by
  intro op' hmem
  rcases List.mem_append.mp hmem with hmem | hmem
  · exact h op' hmem
  · rw [List.mem_singleton.mp hmem]
    exact hop

theorem InSets.touched (h : InSets l t) (hfd : fd < l.fdSetsize) (ht : Touched fd t t') :
    InSets l t' := by
  obtain ⟨ops, rfl, hops⟩ := ht
  intro op hmem fd' hset
  rcases List.mem_append.mp hmem with hmem | hmem
  · exact h op hmem fd' hset
  · rw [hops op hmem fd' hset]
    exact hfd

/-- The clients lie in an `fd_set`, and so did all that was given to a macro. -/
structure Fits (l : Listening) (s : Server) : Prop extends Wired l s where
  inSets : InSets l s.sys.trace
  small : ∀ fd ∈ s.client, fd < l.fdSetsize

theorem Fits.isset (h : Fits l s) (hfd : fd < l.fdSetsize) (rset : Finset Fd) (nready : Int) :
    Fits l { s with rset := rset, nready := nready, sys := s.sys.call (.fdIsset fd) } :=
  { toWired := h.toWired.call (.fdIsset fd) rset nready
    inSets := h.inSets.call _ fun fd' hset => by rw [← Option.some.inj hset]; exact hfd
    small := h.small }

theorem Fits.polled (h : Fits l s) (hlisten : l.listenfd < l.fdSetsize) (rset : Finset Fd) :
    Fits l (s.polled l.listenfd rset) := by
  have hselect : Fits l { s with
      rset := rset
      nready := rset.card
      sys := s.sys.call .select } :=
    { toWired := h.toWired.call .select rset rset.card
      inSets := h.inSets.call _ fun fd hset => absurd hset.symm (Option.some_ne_none fd)
      small := h.small }
  exact hselect.isset hlisten rset rset.card

theorem fits_init (hlisten : l.listenfd < l.fdSetsize) : Fits l (init l) where
  toWired := wired_init l
  inSets := by
    intro op hop fd hset
    rw [List.mem_singleton.mp hop] at hset
    rw [← Option.some.inj hset]
    exact hlisten
  small := by
    intro fd hin
    rw [List.eq_of_mem_replicate hin]
    exact lt_of_lt_of_le (by decide) (Int.natCast_nonneg _)

variable {serve : Nat → Fd → Server → Except Exit Server}

theorem fits_serves (hserved : ∀ i fd s, Holds (Served i fd s) (fun _ => True) (serve i fd s))
    (htouches : Touches serve) :
    Serves serve (Fits l) (fun x => InSets l x.sys.trace) where
  isset s fd h hin _ := h.isset (h.small fd hin) s.rset s.nready
  nready s n h := { h with }
  serve s i fd h hi hfd := by
    have hsmall := h.small fd (List.mem_of_getElem? hi)
    refine Holds.mono (Holds.and (hserved i fd s) (htouches i fd s)) ?_ ?_
    · intro s' hs'
      obtain ⟨hserved', htouched⟩ := hs'
      refine ⟨h.toWired.served hserved' hi hfd, h.inSets.touched hsmall htouched, ?_⟩
      intro fd' hin
      rcases hserved'.client with ⟨hclient, -⟩ | ⟨hclient, -⟩
      · exact h.small fd' (hclient ▸ hin)
      · rw [hclient] at hin
        rcases List.mem_or_eq_of_mem_set hin with hin | heq
        · exact h.small fd' hin
        · rw [heq]
          exact lt_of_lt_of_le (by decide) (Int.natCast_nonneg _)
    · intro x hx
      exact h.inSets.touched hsmall hx.2

/-- The trace when a round looks for a connection. -/
theorem length_polled (rset : Finset Fd) :
    (s.polled l.listenfd rset).sys.trace.length = s.sys.trace.length + 2 := by
  show (s.sys.trace ++ [Op.select] ++ [Op.fdIsset l.listenfd]).length = _
  rw [List.length_append, List.length_append]
  rfl

/-- The connection is given the least unused descriptor. -/
theorem round_fits (hlowest : K.Lowest) (hlisten : l.listenfd < l.fdSetsize)
    (hserves : Serves serve (Fits l) (fun x => InSets l x.sys.trace)) (h : Fits l s)
    (hroom : HasRoom K l s) :
    Holds (Fits l) (fun x => InSets l x.sys.trace) (round K l.listenfd serve s) := by
  apply round_holds
  · intro _
    exact h.inSets
  · intro ready hselect hmem
    have hpolled := h.polled hlisten (s.reported ready)
    apply newClient_holds
    · intro connfd i s' haccept hj
      rw [length_polled] at haccept
      obtain ⟨v, hv, hneg⟩ := hj.slot
      have hfree : -1 ∈ s.client := by
        have hin := List.mem_of_getElem? hv
        rw [← h.free v hin hneg]
        exact hin
      have htakes : Takes K l s := by
        refine ⟨⟨ready, hselect, (Finset.mem_filter.mp hmem).2.2⟩, ?_⟩
        show (K.accept (s.sys.trace.length + 2) s.sys.opened).isSome
        rw [show K.accept (s.sys.trace.length + 2) s.sys.opened = some connfd from haccept]
        rfl
      -- there is room, and `accept` takes the least unused descriptor
      have hsmall : connfd < l.fdSetsize := by
        obtain ⟨d, hnonneg, hlt, hunused⟩ := hroom htakes hfree
        by_contra hge
        exact hunused (hlowest _ _ _ haccept d hnonneg
          (lt_of_lt_of_le hlt (Int.not_lt.mp hge)))
      apply hserves.goOn
      refine ⟨hpolled.toWired.joined hj, ?_, ?_⟩
      · rw [hj.trace]
        refine (hpolled.inSets.call _ ?_).call _ ?_
        · exact fun fd hset => absurd hset.symm (Option.some_ne_none fd)
        · exact fun fd hset => by rw [← Option.some.inj hset]; exact hsmall
      · intro fd hin
        rw [hj.client] at hin
        rcases List.mem_or_eq_of_mem_set hin with hin | heq
        · exact h.small fd hin
        · rw [heq]
          exact hsmall
    · intro _
      exact hpolled.inSets
    · intro connfd _ _ _
      exact hpolled.inSets.call _ fun fd hset => absurd hset.symm (Option.some_ne_none fd)
  · intro ready _ _
    exact hserves.scan _ (h.polled hlisten _)

/-! A round without room leaves them. -/

/-- The trace only grows. -/
theorem grows_serves (htouches : Touches serve) (op : Op) :
    Serves serve (fun s => op ∈ s.sys.trace) (fun x => op ∈ x.sys.trace) where
  isset _ _ h _ _ := List.mem_append_left _ h
  nready _ _ h := h
  serve s i fd h _ _ := by
    refine Holds.mono (htouches i fd s) ?_ ?_
    · intro s' ht
      obtain ⟨ops, htrace, -⟩ := ht
      rw [htrace]
      exact List.mem_append_left _ h
    · intro x ht
      obtain ⟨ops, htrace, -⟩ := ht
      rw [htrace]
      exact List.mem_append_left _ h

theorem round_leaves_sets (htouches : Touches serve) (h : Wired l s) (htakes : Takes K l s)
    (hfree : -1 ∈ s.client)
    (hfull : ∀ d, 0 ≤ d → d < (l.fdSetsize : Fd) → d ∈ s.sys.opened) :
    Holds (fun s' => ¬ InSets l s'.sys.trace) (fun x => ¬ InSets l x.sys.trace)
      (round K l.listenfd serve s) := by
  obtain ⟨⟨ready, hselect, hready⟩, haccepts⟩ := htakes
  have hlisten : l.listenfd ∈ s.allset := (h.allset_iff _).mpr (.inl rfl)
  -- `maxfd` is at least the listening descriptor, so `Select` looks at it
  have hreported : l.listenfd ∈ s.reported ready :=
    Finset.mem_filter.mpr ⟨hlisten, Int.lt_add_one_of_le (h.le_maxfd _ hlisten), hready⟩
  have hsame : ∀ ready', K.select s.sys.trace.length = some ready' → ready' = ready := by
    intro ready' hselect'
    rw [hselect] at hselect'
    exact (Option.some.inj hselect').symm
  apply round_holds
  · intro hnone
    rw [hselect] at hnone
    exact absurd hnone (Option.some_ne_none ready)
  · intro ready' _ _
    apply newClient_holds
    · intro connfd i s' _ hj
      -- all the descriptors below FD_SETSIZE are open
      have hlarge : (l.fdSetsize : Fd) ≤ connfd := by
        by_contra hlt
        exact hj.unused (hfull connfd hj.nonneg (Int.not_le.mp hlt))
      have hset : Op.fdSet connfd ∈ s'.sys.trace := by
        rw [hj.trace]
        exact List.mem_append_right _ (List.mem_singleton_self _)
      have hleaves : ∀ t, Op.fdSet connfd ∈ t → ¬ InSets l t := fun t hin hsets =>
        absurd (hsets _ hin connfd rfl) (Int.not_lt.mpr hlarge)
      exact Holds.mono ((grows_serves htouches _).goOn hset) (fun _ => hleaves _)
        fun _ => hleaves _
    · intro hnone
      rw [length_polled] at hnone
      rw [show K.accept (s.sys.trace.length + 2) s.sys.opened = none from hnone] at haccepts
      exact absurd haccepts Bool.false_ne_true
    · -- a free entry has not been taken
      intro connfd _ _ htaken
      exact absurd (htaken _ hfree) (by decide)
  · intro ready' hselect' hout
    rw [hsame ready' hselect'] at hout
    exact absurd hreported hout

/-- Both ways, for any of the servers. -/
theorem rounds_stay_iff (hlowest : K.Lowest)
    (hserved : ∀ i fd s, Holds (Served i fd s) (fun _ => True) (serve i fd s))
    (htouches : Touches serve) :
    StaysInSets l (round K l.listenfd serve) ↔ StaysRoomy K l (round K l.listenfd serve) := by
  constructor
  · intro hstays
    -- each round is judged in the state it begins with, by the run one round longer
    refine ⟨hstays 0 _ (List.mem_singleton_self _) l.listenfd rfl, ?_⟩
    intro n
    have hwired := rounds_wired (K := K) hserved l n
    have hnext := hstays (n + 1)
    rw [iterate_succ] at hnext
    cases hrun : iterate (round K l.listenfd serve) n (init l) with
    | error x => trivial
    | ok s =>
      rw [hrun] at hwired hnext
      intro htakes hfree
      by_contra hnone
      have hfull : ∀ d, 0 ≤ d → d < (l.fdSetsize : Fd) → d ∈ s.sys.opened := by
        intro d hnonneg hlt
        by_contra hunused
        exact hnone ⟨d, hnonneg, hlt, hunused⟩
      exact Holds.contradict hnext (round_leaves_sets htouches hwired htakes hfree hfull)
  · intro hroomy n
    obtain ⟨hlisten, hroom⟩ := hroomy
    suffices hfits : Holds (Fits l) (fun x => InSets l x.sys.trace)
        (iterate (round K l.listenfd serve) n (init l)) from
      Holds.mono hfits (fun s h => h.inSets) fun x hx => hx
    induction n with
    | zero => exact fits_init hlisten
    | succ n ih =>
      rw [iterate_succ]
      have hboth := Holds.and ih (hroom n)
      refine Holds.bind (Holds.mono hboth (fun _ h => h) fun _ hx => hx.1) ?_
      intro s hs
      exact round_fits hlowest hlisten (fits_serves hserved htouches) hs.1 hs.2

end

/-- The descriptors given to a macro stay below FD_SETSIZE in exactly the runs that
    take each connection while a descriptor below it is unused. -/
theorem staysInSets_iff (K : Kernel) (hlowest : K.Lowest) (l : Listening) :
    (StaysInSets l (selectserver K l) ↔ StaysRoomy K l (selectserver K l)) ∧
    (StaysInSets l (chatserver K l) ↔ StaysRoomy K l (chatserver K l)) ∧
    (StaysInSets l (httpserver K l) ↔ StaysRoomy K l (httpserver K l)) :=
  ⟨rounds_stay_iff hlowest selectServe_served selectServe_touches,
    rounds_stay_iff hlowest chatServe_served chatServe_touches,
    rounds_stay_iff hlowest httpServe_served httpServe_touches⟩

/-- A process that has been started with 1023 descriptors, and listens on the next. -/
def crowded : Listening where
  fdSetsize := 1024
  opened := (Finset.range 1024).image Int.ofNat
  listenfd := 1023
  listenfd_nonneg := by decide
  listenfd_mem := Finset.mem_image.mpr ⟨1023, Finset.mem_range.mpr (by decide), rfl⟩
  buf := List.replicate MAXLINE 0

/-- Clients connect, and say nothing. -/
def queue (listenfd : Fd) : Kernel := .scripted (fun _ fd => fd = listenfd) fun _ => []

theorem staysInSets_iff_queue :
    (StaysInSets .usual (selectserver (queue 3) .usual) ↔
      StaysRoomy (queue 3) .usual (selectserver (queue 3) .usual)) ∧
    (StaysInSets .usual (chatserver (queue 3) .usual) ↔
      StaysRoomy (queue 3) .usual (chatserver (queue 3) .usual)) ∧
    (StaysInSets .usual (httpserver (queue 3) .usual) ↔
      StaysRoomy (queue 3) .usual (httpserver (queue 3) .usual)) :=
  staysInSets_iff (queue 3) (lowest_scripted _ _) .usual

/-- Its first client is outside an `fd_set`, though there are 1024 entries for it. -/
theorem crowded_leaves_sets :
    (queue 1023).Lowest ∧
    ¬ StaysInSets crowded (selectserver (queue 1023) crowded) ∧
    ¬ StaysInSets crowded (chatserver (queue 1023) crowded) ∧
    ¬ StaysInSets crowded (httpserver (queue 1023) crowded) := by
  have hready : ∀ fd : Fd, fd = 1023 → decide (fd = 1023) = true := fun _ heq => decide_eq_true heq
  have htakes : Takes (queue 1023) crowded (init crowded) :=
    ⟨⟨_, rfl, hready _ rfl⟩, rfl⟩
  have hfree : -1 ∈ (init crowded).client :=
    List.mem_replicate.mpr ⟨by decide, rfl⟩
  have hfull : ∀ d, 0 ≤ d → d < (crowded.fdSetsize : Fd) → d ∈ (init crowded).sys.opened := by
    intro d hnonneg hlt
    obtain ⟨k, rfl⟩ := Int.eq_ofNat_of_zero_le hnonneg
    exact Finset.mem_image.mpr ⟨k, Finset.mem_range.mpr (Int.ofNat_lt.mp hlt), rfl⟩
  have hleaves : ∀ serve, Touches serve →
      ¬ StaysInSets crowded (round (queue 1023) crowded.listenfd serve) := by
    intro serve htouches hstays
    have hround := hstays 1
    rw [iterate_one] at hround
    exact Holds.contradict hround
      (round_leaves_sets htouches (wired_init crowded) htakes hfree hfull)
  exact ⟨lowest_scripted _ _, hleaves _ selectServe_touches, hleaves _ chatServe_touches,
    hleaves _ httpServe_touches⟩

end Server

end RubbishStore.Socket
