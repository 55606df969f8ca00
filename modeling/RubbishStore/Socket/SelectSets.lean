import Mathlib.Data.Finset.Card
import RubbishStore.Socket.SelectServer

/- `client`, `allset`, `maxi` and `maxfd` of the select servers agree after every
   round (`Tidy`), and a round reads each client that `Select` reported once and
   no other one. What a server may do with a ready descriptor is said once
   (`Served`): it reads it, and leaves the four as they are or takes the client
   out. The rest of a round is the same for all of them (`Keeps.round`). -/
namespace RubbishStore.Socket
open RubbishStore.Lib

namespace Server

/-- The four variables agree. -/
structure Tidy (l : Listening) (s : Server) : Prop where
  allset_iff : ∀ fd, fd ∈ s.allset ↔ fd = l.listenfd ∨ 0 ≤ fd ∧ fd ∈ s.client
  distinct : ∀ (i j : Nat) fd, s.client[i]? = some fd → s.client[j]? = some fd → 0 ≤ fd → i = j
  above : ∀ i : Nat, s.maxi < i → i < s.client.length → s.client[i]? = some (-1)
  le_maxfd : ∀ fd ∈ s.allset, fd ≤ s.maxfd

/-- They agree with the open descriptors, too. -/
structure Wired (l : Listening) (s : Server) : Prop extends Tidy l s where
  free : ∀ fd ∈ s.client, fd < 0 → fd = -1
  opened : ∀ fd ∈ s.allset, fd ∈ s.sys.opened
  listenfd_notMem : l.listenfd ∉ s.client
  maxi_lt : s.maxi < s.client.length
  maxi_ge : -1 ≤ s.maxi
  length_eq : s.client.length = l.fdSetsize

/-- The descriptors read in a trace. -/
def readFds (t : List Op) : List Fd :=
  t.filterMap fun
    | .read fd _ => some fd
    | _ => none

/-- What a server does with the ready descriptor of entry `i`. -/
structure Served (i : Nat) (sockfd : Fd) (s s' : Server) : Prop where
  maxi : s'.maxi = s.maxi
  maxfd : s'.maxfd = s.maxfd
  rset : s'.rset = s.rset
  nready : s'.nready = s.nready
  client : s'.client = s.client ∧ s'.allset = s.allset ∧ s'.sys.opened = s.sys.opened ∨
    s'.client = s.client.set i (-1) ∧ s'.allset = s.allset.erase sockfd ∧
      s'.sys.opened = s.sys.opened.erase sockfd
  reads : ∃ ops, s'.sys.trace = s.sys.trace ++ ops ∧ readFds ops = [sockfd]

/-! The entries of `client`. -/

section
variable {client : List Int} {i j : Nat} {fd v w : Int}

theorem eq_set_getElem? (h : (client.set i v)[j]? = some w) :
    j = i ∧ w = v ∨ j ≠ i ∧ client[j]? = some w := by
  by_cases hij : i = j
  · subst hij
    have hlt : i < client.length := by
      have := (List.getElem?_eq_some_iff.mp h).1
      rwa [List.length_set] at this
    rw [List.getElem?_set_self hlt] at h
    exact .inl ⟨rfl, (Option.some.inj h).symm⟩
  · rw [List.getElem?_set_ne hij] at h
    exact .inr ⟨Ne.symm hij, h⟩

/-- A free entry is taken. -/
theorem mem_set_free (hi : client[i]? = some v) (hv : v < 0) (hfd : 0 ≤ fd) :
    fd ∈ client.set i w ↔ fd = w ∨ fd ∈ client := by
  have hlt : i < client.length := (List.getElem?_eq_some_iff.mp hi).1
  refine ⟨fun hmem => ?_, fun h => ?_⟩
  · rcases List.mem_or_eq_of_mem_set hmem with hmem | heq
    · exact .inr hmem
    · exact .inl heq
  · rcases h with rfl | hmem
    · exact List.mem_set hlt fd
    · obtain ⟨k, hk⟩ := List.mem_iff_getElem?.mp hmem
      have hne : i ≠ k := by
        intro heq
        obtain rfl := heq
        rw [hi] at hk
        obtain rfl := Option.some.inj hk
        omega
      exact List.mem_iff_getElem?.mpr ⟨k, by rw [List.getElem?_set_ne hne, hk]⟩

/-- The only entry of a descriptor is freed. -/
theorem mem_set_taken (hi : client[i]? = some v)
    (hdistinct : ∀ k, client[k]? = some v → k = i) (hfd : 0 ≤ fd) :
    fd ∈ client.set i (-1) ↔ fd ≠ v ∧ fd ∈ client := by
  have hlt : i < client.length := (List.getElem?_eq_some_iff.mp hi).1
  refine ⟨fun hmem => ?_, fun h => ?_⟩
  · obtain ⟨k, hk⟩ := List.mem_iff_getElem?.mp hmem
    have hne : i ≠ k := by
      intro heq
      obtain rfl := heq
      rw [List.getElem?_set_self hlt] at hk
      obtain rfl := Option.some.inj hk
      omega
    rw [List.getElem?_set_ne hne] at hk
    refine ⟨?_, List.mem_iff_getElem?.mpr ⟨k, hk⟩⟩
    intro heq
    obtain rfl := heq
    exact hne (hdistinct k hk).symm
  · obtain ⟨hne, hmem⟩ := h
    obtain ⟨k, hk⟩ := List.mem_iff_getElem?.mp hmem
    have hik : i ≠ k := by
      intro heq
      obtain rfl := heq
      rw [hi] at hk
      exact hne (Option.some.inj hk).symm
    exact List.mem_iff_getElem?.mpr ⟨k, by rw [List.getElem?_set_ne hik, hk]⟩

end

section
variable {K : Kernel} {l : Listening} {s s' : Server} {i : Nat} {sockfd : Fd}

/-! The steps of a round. -/

theorem Wired.call (h : Wired l s) (op : Op) (rset : Finset Fd) (nready : Int) :
    Wired l { s with rset := rset, nready := nready, sys := s.sys.call op } :=
  { h with }

theorem Wired.congr (h : Wired l s) (hclient : s'.client = s.client) (hallset : s'.allset = s.allset)
    (hopened : s'.sys.opened = s.sys.opened) (hmaxi : s'.maxi = s.maxi) (hmaxfd : s'.maxfd = s.maxfd) :
    Wired l s' :=
  { allset_iff := by rw [hclient, hallset]; exact h.allset_iff
    distinct := by rw [hclient]; exact h.distinct
    above := by rw [hclient, hmaxi]; exact h.above
    le_maxfd := by rw [hallset, hmaxfd]; exact h.le_maxfd
    free := by rw [hclient]; exact h.free
    opened := by rw [hallset, hopened]; exact h.opened
    listenfd_notMem := by rw [hclient]; exact h.listenfd_notMem
    maxi_lt := by rw [hclient, hmaxi]; exact h.maxi_lt
    maxi_ge := by rw [hmaxi]; exact h.maxi_ge
    length_eq := by rw [hclient]; exact h.length_eq }

/-- The client of entry `i` is taken out everywhere. -/
theorem Wired.takenOut (h : Wired l s) (hclient : s'.client = s.client.set i (-1))
    (hallset : s'.allset = s.allset.erase sockfd)
    (hopened : s'.sys.opened = s.sys.opened.erase sockfd) (hmaxi : s'.maxi = s.maxi)
    (hmaxfd : s'.maxfd = s.maxfd) (hi : s.client[i]? = some sockfd) (hfd : 0 ≤ sockfd) :
    Wired l s' := by
  -- the entry of `sockfd` is the only one that changes
  have hmem : ∀ fd, 0 ≤ fd → (fd ∈ s'.client ↔ fd ≠ sockfd ∧ fd ∈ s.client) := by
    intro fd hnonneg
    rw [hclient]
    exact mem_set_taken hi (fun k hk => h.distinct k i sockfd hk hi hfd) hnonneg
  have hlisten : sockfd ≠ l.listenfd := by
    intro heq
    obtain rfl := heq
    exact h.listenfd_notMem (List.mem_of_getElem? hi)
  have hget : ∀ (k : Nat) fd, s'.client[k]? = some fd → 0 ≤ fd → s.client[k]? = some fd := by
    intro k fd hk hnonneg
    rw [hclient] at hk
    rcases eq_set_getElem? hk with ⟨-, hneg⟩ | ⟨-, hk⟩
    · omega
    · exact hk
  exact
    { allset_iff := by
        intro fd
        rw [hallset, Finset.mem_erase, h.allset_iff]
        refine ⟨fun hparts => ?_, fun hcase => ?_⟩
        · obtain ⟨hne, rfl | ⟨hnonneg, hin⟩⟩ := hparts
          · exact .inl rfl
          · exact .inr ⟨hnonneg, (hmem fd hnonneg).mpr ⟨hne, hin⟩⟩
        · rcases hcase with rfl | ⟨hnonneg, hin⟩
          · exact ⟨hlisten.symm, .inl rfl⟩
          · obtain ⟨hne, hin⟩ := (hmem fd hnonneg).mp hin
            exact ⟨hne, .inr ⟨hnonneg, hin⟩⟩
      distinct := by
        intro j k fd hj hk hnonneg
        exact h.distinct j k fd (hget j fd hj hnonneg) (hget k fd hk hnonneg) hnonneg
      above := by
        intro k hk hlt
        rw [hclient, List.length_set] at hlt
        rw [hmaxi] at hk
        rw [hclient]
        by_cases hik : i = k
        · subst hik
          exact List.getElem?_set_self hlt
        · rw [List.getElem?_set_ne hik]
          exact h.above k hk hlt
      le_maxfd := by
        intro fd hin
        rw [hmaxfd]
        rw [hallset] at hin
        exact h.le_maxfd fd (Finset.mem_of_mem_erase hin)
      free := by
        intro fd hin hneg
        rw [hclient] at hin
        rcases List.mem_or_eq_of_mem_set hin with hin | heq
        · exact h.free fd hin hneg
        · exact heq
      opened := by
        intro fd hin
        rw [hallset, Finset.mem_erase] at hin
        rw [hopened, Finset.mem_erase]
        exact ⟨hin.1, h.opened fd hin.2⟩
      listenfd_notMem := by
        intro hin
        exact h.listenfd_notMem ((hmem _ l.listenfd_nonneg).mp hin).2
      maxi_lt := by
        rw [hclient, List.length_set, hmaxi]
        exact h.maxi_lt
      maxi_ge := by
        rw [hmaxi]
        exact h.maxi_ge
      length_eq := by
        rw [hclient, List.length_set]
        exact h.length_eq }

theorem Wired.served (h : Wired l s) (hs : Served i sockfd s s')
    (hi : s.client[i]? = some sockfd) (hfd : 0 ≤ sockfd) : Wired l s' := by
  rcases hs.client with ⟨hclient, hallset, hopened⟩ | ⟨hclient, hallset, hopened⟩
  · exact h.congr hclient hallset hopened hs.maxi hs.maxfd
  · exact h.takenOut hclient hallset hopened hs.maxi hs.maxfd hi hfd

theorem wired_init (l : Listening) : Wired l (init l) := by
  have hclient : ∀ fd ∈ List.replicate l.fdSetsize (-1 : Int), fd = -1 := fun fd hin =>
    List.eq_of_mem_replicate hin
  exact
    { allset_iff := by
        intro fd
        refine ⟨fun hin => ?_, fun hcase => ?_⟩
        · exact .inl (Finset.mem_singleton.mp hin)
        · rcases hcase with rfl | ⟨hnonneg, hin⟩
          · exact Finset.mem_singleton_self _
          · rw [hclient fd hin] at hnonneg
            exact absurd hnonneg (by decide)
      distinct := by
        intro j k fd hj _ hnonneg
        have := hclient fd (List.mem_of_getElem? hj)
        omega
      above := by
        intro k _ hlt
        rw [init] at hlt ⊢
        exact List.getElem?_replicate_of_lt (by simpa using hlt)
      le_maxfd := by
        intro fd hin
        exact le_of_eq (Finset.mem_singleton.mp hin)
      free := by
        intro fd hin _
        exact hclient fd hin
      opened := by
        intro fd hin
        rw [Finset.mem_singleton.mp hin]
        exact l.listenfd_mem
      listenfd_notMem := by
        intro hin
        have hnonneg := l.listenfd_nonneg
        rw [hclient _ hin] at hnonneg
        exact absurd hnonneg (by decide)
      maxi_lt := by
        show (-1 : Int) < ((init l).client.length : Int)
        exact lt_of_lt_of_le (by decide) (Int.natCast_nonneg _)
      maxi_ge := le_refl _
      length_eq := List.length_replicate }

theorem ite_gt_eq_max (a b : Int) : (if b > a then b else a) = max a b := by
  split <;> omega

/-- What a new connection does: its descriptor is in the first free entry. -/
structure Joined (connfd : Fd) (i : Nat) (s s' : Server) : Prop where
  nonneg : 0 ≤ connfd
  unused : connfd ∉ s.sys.opened
  slot : ∃ v, s.client[i]? = some v ∧ v < 0
  client : s'.client = s.client.set i connfd
  allset : s'.allset = insert connfd s.allset
  maxfd : s'.maxfd = max s.maxfd connfd
  maxi : s'.maxi = max s.maxi i
  rset : s'.rset = s.rset
  nready : s'.nready = s.nready
  buf : s'.buf = s.buf
  opened : s'.sys.opened = insert connfd s.sys.opened
  trace : s'.sys.trace = s.sys.trace ++ [.accept connfd] ++ [.fdSet connfd]

theorem Joined.mem_client {connfd fd : Fd} (hj : Joined connfd i s s') (hfd : 0 ≤ fd) :
    fd ∈ s'.client ↔ fd = connfd ∨ fd ∈ s.client := by
  obtain ⟨v, hv, hneg⟩ := hj.slot
  rw [hj.client]
  exact mem_set_free hv hneg hfd

/-- A descriptor of the process's own stays open and no client's. -/
theorem Joined.own {connfd fd : Fd} (hj : Joined connfd i s s') (hfd : 0 ≤ fd)
    (hopen : fd ∈ s.sys.opened) (hclient : fd ∉ s.client) :
    fd ∈ s'.sys.opened ∧ fd ∉ s'.client := by
  constructor
  · rw [hj.opened]
    exact Finset.mem_insert_of_mem hopen
  · rw [hj.mem_client hfd, not_or]
    exact ⟨fun heq => hj.unused (heq ▸ hopen), hclient⟩

theorem newClient_holds {P : Server → Prop} {Q : Exit → Prop}
    (hok : ∀ connfd i s', K.accept s.sys.trace.length s.sys.opened = some connfd →
      Joined connfd i s s' → P s')
    (herr : K.accept s.sys.trace.length s.sys.opened = none → Q ⟨some "accept error", s.sys⟩)
    (hfull : ∀ connfd, 0 ≤ connfd → connfd ∉ s.sys.opened → (∀ v ∈ s.client, 0 ≤ v) →
      Q ⟨some "too many clients", ⟨insert connfd s.sys.opened, s.sys.trace ++ [.accept connfd]⟩⟩) :
    Holds P Q (s.newClient K) := by
  rw [newClient, accept]
  cases haccept : K.accept s.sys.trace.length s.sys.opened with
  | none => exact herr haccept
  | some connfd =>
    obtain ⟨hnonneg, hunused⟩ := K.accept_new _ _ _ haccept
    dsimp only [bind, Except.bind]
    cases hfind : s.client.findIdx? (· < 0) with
    | none =>
      apply hfull connfd hnonneg hunused
      intro v hv
      have hfree := List.findIdx?_eq_none_iff.mp hfind v hv
      exact Int.not_lt.mp (of_decide_eq_false hfree)
    | some i =>
      obtain ⟨hlt, hfree, -⟩ := List.findIdx?_eq_some_iff_getElem.mp hfind
      apply hok connfd i _ haccept
      exact
        { nonneg := hnonneg
          unused := hunused
          slot := ⟨_, List.getElem?_eq_getElem hlt, of_decide_eq_true hfree⟩
          client := rfl
          allset := rfl
          maxfd := ite_gt_eq_max s.maxfd connfd
          maxi := ite_gt_eq_max s.maxi i
          rset := rfl
          nready := rfl
          buf := rfl
          opened := rfl
          trace := rfl }

theorem Wired.joined {connfd : Fd} (h : Wired l s) (hj : Joined connfd i s s') : Wired l s' := by
  obtain ⟨v, hv, hneg⟩ := hj.slot
  have hlt : i < s.client.length := (List.getElem?_eq_some_iff.mp hv).1
  -- the new descriptor was not open, so it is in none of the variables
  have hset : connfd ∉ s.allset := fun hin => hj.unused (h.opened connfd hin)
  have hnew : connfd ∉ s.client := fun hin =>
    hset ((h.allset_iff connfd).mpr (.inr ⟨hj.nonneg, hin⟩))
  have hlisten : connfd ≠ l.listenfd := by
    intro heq
    obtain rfl := heq
    exact hset ((h.allset_iff _).mpr (.inl rfl))
  have hmem : ∀ fd, 0 ≤ fd → (fd ∈ s'.client ↔ fd = connfd ∨ fd ∈ s.client) :=
    fun fd hnonneg => hj.mem_client hnonneg
  exact
    { allset_iff := by
        intro fd
        rw [hj.allset, Finset.mem_insert, h.allset_iff]
        refine ⟨fun hcase => ?_, fun hcase => ?_⟩
        · rcases hcase with rfl | rfl | ⟨hnonneg, hin⟩
          · exact .inr ⟨hj.nonneg, (hmem _ hj.nonneg).mpr (.inl rfl)⟩
          · exact .inl rfl
          · exact .inr ⟨hnonneg, (hmem fd hnonneg).mpr (.inr hin)⟩
        · rcases hcase with rfl | ⟨hnonneg, hin⟩
          · exact .inr (.inl rfl)
          · rcases (hmem fd hnonneg).mp hin with heq | hin
            · exact .inl heq
            · exact .inr (.inr ⟨hnonneg, hin⟩)
      distinct := by
        intro j k fd hj' hk hnonneg
        rw [hj.client] at hj' hk
        rcases eq_set_getElem? hj' with ⟨rfl, hfd⟩ | ⟨-, hj'⟩
        · rcases eq_set_getElem? hk with ⟨rfl, -⟩ | ⟨-, hk⟩
          · rfl
          · exact absurd (List.mem_of_getElem? hk) (hfd ▸ hnew)
        · rcases eq_set_getElem? hk with ⟨-, hfd⟩ | ⟨-, hk⟩
          · exact absurd (List.mem_of_getElem? hj') (hfd ▸ hnew)
          · exact h.distinct j k fd hj' hk hnonneg
      above := by
        intro k hk hlen
        rw [hj.maxi] at hk
        rw [hj.client, List.length_set] at hlen
        have hik : i ≠ k := by omega
        rw [hj.client, List.getElem?_set_ne hik]
        exact h.above k (by omega) hlen
      le_maxfd := by
        intro fd hin
        rw [hj.allset, Finset.mem_insert] at hin
        rw [hj.maxfd]
        rcases hin with rfl | hin
        · exact le_max_right _ _
        · exact le_trans (h.le_maxfd fd hin) (le_max_left _ _)
      free := by
        intro fd hin hfree
        rw [hj.client] at hin
        rcases List.mem_or_eq_of_mem_set hin with hin | rfl
        · exact h.free fd hin hfree
        · exact absurd hj.nonneg (Int.not_le.mpr hfree)
      opened := by
        intro fd hin
        rw [hj.allset, Finset.mem_insert] at hin
        rw [hj.opened, Finset.mem_insert]
        exact hin.imp_right (h.opened fd)
      listenfd_notMem := by
        intro hin
        rcases (hmem _ l.listenfd_nonneg).mp hin with heq | hin
        · exact hlisten heq.symm
        · exact h.listenfd_notMem hin
      maxi_lt := by
        rw [hj.client, List.length_set, hj.maxi]
        have := h.maxi_lt
        omega
      maxi_ge := by
        rw [hj.maxi]
        exact le_trans h.maxi_ge (le_max_left _ _)
      length_eq := by
        rw [hj.client, List.length_set]
        exact h.length_eq }

/-! What is kept by the steps is kept by the round. -/

/-- After `Select` and the look at the listening descriptor. -/
def polled (listenfd : Fd) (rset : Finset Fd) (s : Server) : Server :=
  { s with
    rset := rset
    nready := rset.card
    sys := (s.sys.call .select).call (.fdIsset listenfd) }

/-- The descriptors of `allset` that `Select` reports. -/
def reported (ready : Fd → Bool) (s : Server) : Finset Fd :=
  s.allset.filter fun fd => fd < s.maxfd + 1 ∧ ready fd = true

/-- One descriptor is done with, and the scan goes on if there are more. -/
def goOn (serve : Nat → Fd → Server → Except Exit Server) (s : Server) : Except Exit Server :=
  let s := { s with nready := s.nready - 1 }
  if s.nready ≤ 0 then .ok s else scan serve s.indices s

theorem Wired.polled (h : Wired l s) (rset : Finset Fd) :
    Wired l (s.polled l.listenfd rset) :=
  (h.call .select rset rset.card).call (.fdIsset l.listenfd) rset rset.card

section
variable {listenfd : Fd} {serve : Nat → Fd → Server → Except Exit Server} {P : Server → Prop}
  {Q : Exit → Prop}

theorem round_holds
    (hnone : K.select s.sys.trace.length = none → Q ⟨some "select error", s.sys⟩)
    (hjoin : ∀ ready, K.select s.sys.trace.length = some ready → listenfd ∈ s.reported ready →
      Holds (fun s' => Holds P Q (goOn serve s')) Q
        ((s.polled listenfd (s.reported ready)).newClient K))
    (hscan : ∀ ready, K.select s.sys.trace.length = some ready → listenfd ∉ s.reported ready →
      Holds P Q (scan serve s.indices (s.polled listenfd (s.reported ready)))) :
    Holds P Q (round K listenfd serve s) := by
  rw [round, select]
  cases hselect : K.select s.sys.trace.length with
  | none => exact hnone hselect
  | some ready =>
    apply Holds.ite
    · intro hlisten
      exact Holds.bind (hjoin ready hselect (of_decide_eq_true hlisten)) fun s' hs' => hs'
    · intro hlisten
      exact hscan ready hselect (of_decide_eq_false (Bool.eq_false_of_not_eq_true hlisten))

/-- The steps of a scan keep `P`, and end the process in `Q`. -/
structure Serves (serve : Nat → Fd → Server → Except Exit Server) (P : Server → Prop)
    (Q : Exit → Prop) : Prop where
  isset : ∀ s fd, P s → fd ∈ s.client → 0 ≤ fd →
    P { s with sys := s.sys.call (.fdIsset fd) }
  nready : ∀ s n, P s → P { s with nready := n }
  serve : ∀ s i fd, P s → s.client[i]? = some fd → 0 ≤ fd → Holds P Q (serve i fd s)

/-- So do the steps of a round. -/
structure Keeps (K : Kernel) (listenfd : Fd) (serve : Nat → Fd → Server → Except Exit Server)
    (P : Server → Prop) (Q : Exit → Prop) : Prop extends Serves serve P Q where
  polled : ∀ s rset, P s → P (s.polled listenfd rset)
  newClient : ∀ s, P s → Holds P Q (s.newClient K)
  error : ∀ s, P s → Q ⟨some "select error", s.sys⟩

theorem getElem?_of_getD {client : List Int} {j : Nat} (h : ¬ client.getD j (-1) < 0) :
    client[j]? = some (client.getD j (-1)) := by
  rw [List.getD_eq_getElem?_getD] at h ⊢
  cases hj : client[j]? with
  | none => rw [hj] at h; exact absurd (by decide) h
  | some v => rfl

theorem Serves.scan (hk : Serves serve P Q) (is : List Nat) (hs : P s) :
    Holds P Q (scan serve is s) := by
  induction is generalizing s with
  | nil => exact hs
  | cons i is ih =>
    rw [Server.scan]
    apply Holds.ite
    · intro _
      exact ih hs
    · intro hpos
      have hi := getElem?_of_getD hpos
      have hnonneg := Int.not_lt.mp hpos
      have hisset := hk.isset s _ hs (List.mem_of_getElem? hi) hnonneg
      apply Holds.ite
      · intro _
        refine Holds.bind (hk.serve _ i _ hisset hi hnonneg) fun s' hs' => ?_
        have hs'' := hk.nready s' (s'.nready - 1) hs'
        apply Holds.ite
        · intro _
          exact hs''
        · intro _
          exact ih hs''
      · intro _
        exact ih hisset

theorem Serves.goOn (hk : Serves serve P Q) (hs : P s) : Holds P Q (goOn serve s) := by
  have hs' := hk.nready s (s.nready - 1) hs
  apply Holds.ite
  · intro _
    exact hs'
  · intro _
    exact hk.scan _ hs'

theorem Keeps.round (hk : Keeps K listenfd serve P Q) (hs : P s) :
    Holds P Q (round K listenfd serve s) := by
  apply round_holds
  · intro _
    exact hk.error s hs
  · intro ready _ _
    exact Holds.mono (hk.newClient _ (hk.polled s _ hs)) (fun s' hs' => hk.goOn hs') fun _ h => h
  · intro ready _ _
    exact hk.scan _ (hk.polled s _ hs)

end

/-! What the servers do with a ready descriptor. -/

@[simp] theorem readFds_append (t u : List Op) : readFds (t ++ u) = readFds t ++ readFds u :=
  List.filterMap_append

/-- Calls that neither read nor open or close a descriptor. -/
structure Wrote (sys sys' : Sys) : Prop where
  opened : sys'.opened = sys.opened
  trace : ∃ ops, sys'.trace = sys.trace ++ ops ∧ readFds ops = []

theorem Wrote.refl (sys : Sys) : Wrote sys sys := ⟨rfl, [], (List.append_nil _).symm, rfl⟩

theorem Wrote.call {sys sys' : Sys} (h : Wrote sys sys') {op : Op} (hop : readFds [op] = []) :
    Wrote sys (sys'.call op) := by
  obtain ⟨hopened, ops, htrace, hreads⟩ := h
  refine ⟨hopened, ops ++ [op], ?_, ?_⟩
  · rw [Sys.trace_call, htrace, List.append_assoc]
  · rw [readFds_append, hreads, hop]
    rfl

theorem wrote_writen {sys sys' : Sys} (h : Wrote sys sys') (fd : Fd) (bytes : Bytes) :
    Holds (Wrote sys) (fun _ => True) (writen K sys' fd bytes) :=
  writen_holds (fun _ => h) (fun _ _ => h.call rfl) fun _ _ _ => trivial

theorem wrote_broadcast {sys sys' : Sys} (h : Wrote sys sys') (bytes : Bytes) (js : List Nat) :
    Holds (Wrote sys) (fun _ => True) (broadcast K i bytes s js sys') := by
  induction js generalizing sys' with
  | nil => exact h
  | cons j js ih =>
    rw [broadcast]
    apply Holds.ite
    · intro _
      exact Holds.bind (wrote_writen h _ _) fun sys'' h'' => ih h''
    · intro _
      exact ih h

theorem Wrote.ops {sys sys' : Sys} {bytes : Bytes}
    (h : Wrote (sys.call (.read sockfd bytes)) sys') :
    ∃ ops, sys'.trace = sys.trace ++ ops ∧ readFds ops = [sockfd] := by
  obtain ⟨ops, htrace, hreads⟩ := h.trace
  refine ⟨.read sockfd bytes :: ops, ?_, ?_⟩
  · rw [htrace, Sys.trace_call, List.append_assoc]
    rfl
  · show sockfd :: readFds ops = [sockfd]
    rw [hreads]

/-- The descriptor is read, something is written, and it stays. -/
theorem Served.kept {sys : Sys} {bytes buf : Bytes}
    (h : Wrote (s.sys.call (.read sockfd bytes)) sys) :
    Served i sockfd s { s with buf := buf, sys := sys } where
  maxi := rfl
  maxfd := rfl
  rset := rfl
  nready := rfl
  client := .inl ⟨rfl, rfl, h.opened⟩
  reads := h.ops

/-- The descriptor is read, something is written, and it is closed. -/
theorem served_hangUp {sys : Sys} {bytes buf : Bytes}
    (h : Wrote (s.sys.call (.read sockfd bytes)) sys) :
    Holds (Served i sockfd s) (fun _ => True) (hangUp i sockfd { s with buf := buf, sys := sys }) := by
  obtain ⟨ops, htrace, hreads⟩ := h.ops
  rw [hangUp, close]
  refine Holds.bind (P := fun sys' => sys' =
    { opened := sys.opened.erase sockfd, trace := sys.trace ++ [.close sockfd] }) ?_ ?_
  · exact Holds.ite (fun _ => rfl) fun _ => trivial
  · intro sys' heq
    obtain rfl := heq
    exact
      { maxi := rfl
        maxfd := rfl
        rset := rfl
        nready := rfl
        client := .inr ⟨rfl, rfl, congrArg (Finset.erase · sockfd) h.opened⟩
        reads := by
          refine ⟨ops ++ [.close sockfd] ++ [.fdClr sockfd], ?_, ?_⟩
          · show sys.trace ++ [.close sockfd] ++ [.fdClr sockfd] = _
            rw [htrace]
            simp only [List.append_assoc]
          · rw [readFds_append, readFds_append, hreads]
            rfl }

theorem served_read {f : Bytes × Sys → Except Exit Server}
    (hf : ∀ bytes, Holds (Served i sockfd s) (fun _ => True)
      (f (bytes, s.sys.call (.read sockfd bytes)))) :
    Holds (Served i sockfd s) (fun _ => True) (read K s.sys sockfd >>= f) := by
  refine Holds.bind (read_holds (P := fun r => r.2 = s.sys.call (.read sockfd r.1))
    (fun _ _ => rfl) trivial fun _ => trivial) ?_
  intro r hsys
  obtain ⟨bytes, sys⟩ := r
  obtain rfl : sys = s.sys.call (.read sockfd bytes) := hsys
  exact hf bytes

theorem selectServe_served (i : Nat) (sockfd : Fd) (s : Server) :
    Holds (Served i sockfd s) (fun _ => True) (selectServe K i sockfd s) := by
  apply served_read
  intro bytes
  apply Holds.ite
  · intro _
    exact served_hangUp (Wrote.refl _)
  · intro _
    exact Holds.bind (wrote_writen (Wrote.refl _) sockfd bytes) fun sys h => Served.kept h

theorem chatServe_served (i : Nat) (sockfd : Fd) (s : Server) :
    Holds (Served i sockfd s) (fun _ => True) (chatServe K i sockfd s) := by
  apply served_read
  intro bytes
  refine Holds.bind (P := Served i sockfd s) ?_ ?_
  · apply Holds.ite
    · intro _
      exact served_hangUp (Wrote.refl _)
    · intro _
      exact Holds.bind (wrote_broadcast (Wrote.refl _) bytes _) fun sys h => Served.kept h
  · intro s' hs'
    refine Holds.bind (wrote_writen (Wrote.refl s'.sys) stdoutFd bytes) fun sys h => ?_
    obtain ⟨more, hmore, hnone⟩ := h.trace
    obtain ⟨ops, htrace, hreads⟩ := hs'.reads
    exact
      { maxi := hs'.maxi
        maxfd := hs'.maxfd
        rset := hs'.rset
        nready := hs'.nready
        client := by rw [h.opened]; exact hs'.client
        reads := by
          refine ⟨ops ++ more, ?_, ?_⟩
          · rw [hmore, htrace, List.append_assoc]
          · rw [readFds_append, hreads, hnone]
            rfl }

/-! Which descriptors a round reads. -/

/-- The ready descriptors of the entries at the indices. -/
def readyAt (client : List Int) (rset : Finset Fd) (is : List Nat) : List Fd :=
  (is.map fun i => client.getD i (-1)).filter fun fd => 0 ≤ fd ∧ fd ∈ rset

theorem readyAt_cons_pos {client : List Int} {rset : Finset Fd} {is : List Nat}
    (h : 0 ≤ client.getD i (-1) ∧ client.getD i (-1) ∈ rset) :
    readyAt client rset (i :: is) = client.getD i (-1) :: readyAt client rset is := by
  rw [readyAt, List.map_cons, List.filter_cons_of_pos (by simpa using h), readyAt]

theorem readyAt_cons_neg {client : List Int} {rset : Finset Fd} {is : List Nat}
    (h : ¬ (0 ≤ client.getD i (-1) ∧ client.getD i (-1) ∈ rset)) :
    readyAt client rset (i :: is) = readyAt client rset is := by
  rw [readyAt, List.map_cons, List.filter_cons_of_neg (by simpa using h), readyAt]

/-- Serving an entry leaves the ready descriptors of the others. -/
theorem Served.readyAt (hs : Served i sockfd s s') {is : List Nat} (hi : i ∉ is) :
    Server.readyAt s'.client s'.rset is = Server.readyAt s.client s.rset is := by
  have hget : ∀ j ∈ is, s'.client.getD j (-1) = s.client.getD j (-1) := by
    intro j hj
    have hne : i ≠ j := fun heq => hi (heq ▸ hj)
    rcases hs.client with ⟨hclient, -⟩ | ⟨hclient, -⟩
    · rw [hclient]
    · rw [hclient, List.getD_eq_getElem?_getD, List.getElem?_set_ne hne,
        ← List.getD_eq_getElem?_getD]
  rw [Server.readyAt, List.map_congr_left hget, hs.rset, Server.readyAt]

/-- From `s` to `s'` these descriptors have been read, and `rset` is as it was. -/
def Reads (fds : List Fd) (s s' : Server) : Prop :=
  s'.rset = s.rset ∧ ∃ ops, s'.sys.trace = s.sys.trace ++ ops ∧ readFds ops = fds

theorem Reads.refl (s : Server) : Reads [] s s := ⟨rfl, [], (List.append_nil _).symm, rfl⟩

theorem Reads.trans {fds fds' : List Fd} {s'' : Server} (h : Reads fds s s')
    (h' : Reads fds' s' s'') : Reads (fds ++ fds') s s'' := by
  obtain ⟨hrset, ops, htrace, hreads⟩ := h
  obtain ⟨hrset', more, hmore, hreads'⟩ := h'
  refine ⟨hrset'.trans hrset, ops ++ more, ?_, ?_⟩
  · rw [hmore, htrace, List.append_assoc]
  · rw [readFds_append, hreads, hreads']

theorem reads_isset (s : Server) (fd : Fd) :
    Reads [] s { s with sys := s.sys.call (.fdIsset fd) } := ⟨rfl, [.fdIsset fd], rfl, rfl⟩

/-- While `nready` counts the ready descriptors ahead, the scan reads them all:
    it stops where none is left. -/
theorem scan_reads {serve : Nat → Fd → Server → Except Exit Server}
    (hserve : ∀ i fd s, Holds (Served i fd s) (fun _ => True) (serve i fd s)) {is : List Nat}
    (hnodup : is.Nodup) (hcount : s.nready = (readyAt s.client s.rset is).length) :
    Holds (Reads (readyAt s.client s.rset is) s) (fun _ => True) (scan serve is s) := by
  induction is generalizing s with
  | nil => exact Reads.refl s
  | cons i is ih =>
    obtain ⟨hi, hnodup'⟩ := List.nodup_cons.mp hnodup
    rw [Server.scan]
    apply Holds.ite
    · -- a free entry
      intro hneg
      rw [readyAt_cons_neg fun h => absurd hneg (Int.not_lt.mpr h.1)] at hcount ⊢
      exact ih hnodup' hcount
    · intro hpos
      have hnonneg := Int.not_lt.mp hpos
      have hisset := reads_isset s (s.client.getD i (-1))
      apply Holds.ite
      · -- ready: it is read, and `nready` counts one less
        intro hready
        have hmem := of_decide_eq_true hready
        rw [readyAt_cons_pos ⟨hnonneg, hmem⟩] at hcount ⊢
        refine Holds.bind (hserve i _ _) fun s' hs' => ?_
        have hone : Reads [s.client.getD i (-1)] s { s' with nready := s'.nready - 1 } :=
          hisset.trans ⟨hs'.rset, hs'.reads⟩
        have hahead : readyAt s'.client s'.rset is = readyAt s.client s.rset is := hs'.readyAt hi
        have hleft : s'.nready - 1 = (readyAt s.client s.rset is).length := by
          rw [hs'.nready]
          show s.nready - 1 = _
          rw [hcount, List.length_cons]
          omega
        apply Holds.ite
        · -- `nready` is used up, and so are the ready ones
          intro hdone
          have hnone : readyAt s.client s.rset is = [] := by
            apply List.eq_nil_of_length_eq_zero
            have hle : s'.nready - 1 ≤ 0 := hdone
            omega
          rw [hnone]
          exact hone
        · intro _
          rw [← hahead] at hleft ⊢
          have hrest := ih (s := { s' with nready := s'.nready - 1 }) hnodup' hleft
          exact Holds.mono hrest (fun _ hreads => hone.trans hreads) fun _ _ => trivial
      · intro hready
        have hmem := of_decide_eq_false (Bool.eq_false_of_not_eq_true hready)
        rw [readyAt_cons_neg fun h => hmem h.2] at hcount ⊢
        exact Holds.mono (ih hnodup' hcount) (fun _ hreads => hisset.trans hreads) fun _ _ => trivial

/-- The scan reaches every client. -/
theorem Wired.mem_indices (h : Wired l s) {j : Nat} {fd : Fd} (hj : s.client[j]? = some fd)
    (hfd : 0 ≤ fd) : j ∈ s.indices := by
  have hlt : j < s.client.length := (List.getElem?_eq_some_iff.mp hj).1
  have hle : (j : Int) ≤ s.maxi := by
    -- the entries above `maxi` are free
    by_contra hgt
    have habove := h.above j (Int.not_le.mp hgt) hlt
    rw [hj] at habove
    rw [Option.some.inj habove] at hfd
    exact absurd hfd (by decide)
  exact List.mem_range.mpr (by omega)

theorem Wired.getD_inj (h : Wired l s) {j k : Nat} (hj : 0 ≤ s.client.getD j (-1))
    (heq : s.client.getD j (-1) = s.client.getD k (-1)) : j = k := by
  have hgetj := getElem?_of_getD (Int.not_lt.mpr hj)
  have hgetk := getElem?_of_getD (Int.not_lt.mpr (heq ▸ hj))
  exact h.distinct j k _ hgetj (heq ▸ hgetk) hj

/-- The entries up to `maxi` hold each ready descriptor but the listening one, once. -/
theorem Wired.readyAt (h : Wired l s) {rset : Finset Fd}
    (hsub : ∀ fd ∈ rset, fd = l.listenfd ∨ 0 ≤ fd ∧ fd ∈ s.client) :
    (Server.readyAt s.client rset s.indices).Nodup ∧
      ∀ fd, fd ∈ Server.readyAt s.client rset s.indices ↔ fd ∈ rset ∧ fd ≠ l.listenfd := by
  constructor
  · rw [Server.readyAt, List.filter_map]
    apply List.Nodup.map_on
    · intro j hj k hk heq
      obtain ⟨-, hj⟩ := List.mem_filter.mp hj
      exact h.getD_inj (of_decide_eq_true hj).1 heq
    · exact List.nodup_range.filter _
  · intro fd
    rw [Server.readyAt, List.mem_filter, List.mem_map]
    refine ⟨fun hlisted => ?_, fun hboth => ?_⟩
    · obtain ⟨⟨j, -, rfl⟩, hready⟩ := hlisted
      obtain ⟨hnonneg, hmem⟩ := of_decide_eq_true hready
      refine ⟨hmem, ?_⟩
      intro heq
      have hget := getElem?_of_getD (Int.not_lt.mpr hnonneg)
      rw [heq] at hget
      exact h.listenfd_notMem (List.mem_of_getElem? hget)
    · obtain ⟨hmem, hne⟩ := hboth
      rcases hsub fd hmem with heq | ⟨hnonneg, hin⟩
      · exact absurd heq hne
      · obtain ⟨j, hj⟩ := List.mem_iff_getElem?.mp hin
        refine ⟨⟨j, h.mem_indices hj hnonneg, ?_⟩, decide_eq_true ⟨hnonneg, hmem⟩⟩
        rw [List.getD_eq_getElem?_getD, hj, Option.getD_some]

/-- So `Select`'s count is theirs, and one more if a connection is waiting. -/
theorem Wired.card (h : Wired l s) {rset : Finset Fd}
    (hsub : ∀ fd ∈ rset, fd = l.listenfd ∨ 0 ≤ fd ∧ fd ∈ s.client) :
    (rset.card : Int) = (Server.readyAt s.client rset s.indices).length +
      if l.listenfd ∈ rset then 1 else 0 := by
  obtain ⟨hnodup, hmem⟩ := h.readyAt hsub
  have hset : (Server.readyAt s.client rset s.indices).toFinset = rset.erase l.listenfd := by
    ext fd
    rw [List.mem_toFinset, hmem, Finset.mem_erase, and_comm]
  rw [← List.toFinset_card_of_nodup hnodup, hset]
  split
  case isTrue hin =>
    have := Finset.card_erase_add_one hin
    omega
  case isFalse hout => rw [Finset.erase_eq_of_notMem hout, Int.add_zero]

/-- The round from `s` to `s'` has read the clients that `Select` reported, each
    once, and no other descriptor. -/
def ReadsReady (l : Listening) (s s' : Server) : Prop :=
  s'.rset ⊆ s.allset ∧ ∃ ops, s'.sys.trace = s.sys.trace ++ ops ∧ (readFds ops).Nodup ∧
    ∀ fd, fd ∈ readFds ops ↔ fd ∈ s'.rset ∧ fd ≠ l.listenfd

/-- Before the scan of a round that began in `s₀`: nothing has been read, and `nready`
    counts the clients that were reported. -/
structure Reported (l : Listening) (s₀ s : Server) : Prop extends Wired l s where
  rset_sub : s.rset ⊆ s₀.allset
  clients : ∀ fd ∈ s.rset, fd = l.listenfd ∨ 0 ≤ fd ∧ fd ∈ s.client
  unread : ∃ before, s.sys.trace = s₀.sys.trace ++ before ∧ readFds before = []
  count : s.nready = (Server.readyAt s.client s.rset s.indices).length

/-- The round that reads the ready entries has read what was reported. -/
theorem Reported.readsReady {s₀ : Server} (h : Reported l s₀ s)
    (hreads : Reads (Server.readyAt s.client s.rset s.indices) s s') : ReadsReady l s₀ s' := by
  obtain ⟨hrset, ops, hops, hreads⟩ := hreads
  obtain ⟨before, htrace, hbefore⟩ := h.unread
  obtain ⟨hnodup, hmem⟩ := h.toWired.readyAt h.clients
  have hall : readFds (before ++ ops) = Server.readyAt s.client s.rset s.indices := by
    rw [readFds_append, hbefore, hreads, List.nil_append]
  refine ⟨by rw [hrset]; exact h.rset_sub, before ++ ops, ?_, ?_, ?_⟩
  · rw [hops, htrace, List.append_assoc]
  · rw [hall]
    exact hnodup
  · intro fd
    rw [hall, hmem, hrset]

section
variable {serve : Nat → Fd → Server → Except Exit Server}
  (hserve : ∀ i fd s, Holds (Served i fd s) (fun _ => True) (serve i fd s))
include hserve

theorem Reported.scan {s₀ : Server} (h : Reported l s₀ s) :
    Holds (ReadsReady l s₀) (fun _ => True) (Server.scan serve s.indices s) :=
  Holds.mono (scan_reads hserve List.nodup_range h.count) (fun _ hreads => h.readsReady hreads)
    fun _ _ => trivial

theorem Reported.goOn {s₀ : Server} (h : Reported l s₀ { s with nready := s.nready - 1 }) :
    Holds (ReadsReady l s₀) (fun _ => True) (Server.goOn serve s) := by
  apply Holds.ite
  · -- no more readable descriptors
    intro hdone
    have hnone : Server.readyAt s.client s.rset s.indices = [] := by
      apply List.eq_nil_of_length_eq_zero
      have hle : s.nready - 1 ≤ 0 := hdone
      have hcount : s.nready - 1 = (Server.readyAt s.client s.rset s.indices).length := h.count
      omega
    apply h.readsReady
    show Reads (Server.readyAt s.client s.rset s.indices) _ _
    rw [hnone]
    exact Reads.refl _
  · intro _
    exact h.scan hserve

end

theorem Wired.of_reported (h : Wired l s) {ready : Fd → Bool} (fd : Fd)
    (hfd : fd ∈ s.reported ready) : fd = l.listenfd ∨ 0 ≤ fd ∧ fd ∈ s.client :=
  (h.allset_iff fd).mp (Finset.mem_of_mem_filter fd hfd)

/-- `Select` and the look at the listening descriptor, when no connection is waiting. -/
theorem Wired.reported (h : Wired l s) {ready : Fd → Bool}
    (hnone : l.listenfd ∉ s.reported ready) :
    Reported l s (s.polled l.listenfd (s.reported ready)) where
  toWired := h.polled (s.reported ready)
  rset_sub := Finset.filter_subset _ _
  clients := h.of_reported
  unread := ⟨[.select, .fdIsset l.listenfd], List.append_assoc _ _ _, rfl⟩
  count := by
    have hclients : ∀ fd ∈ s.reported ready, fd = l.listenfd ∨ 0 ≤ fd ∧ fd ∈ s.client :=
      h.of_reported
    have hcard := (h.polled (s.reported ready)).card hclients
    rw [if_neg hnone, Int.add_zero] at hcard
    exact hcard

/-- And when one is taken: it is not among the reported descriptors. -/
theorem Wired.reported_joined (h : Wired l s) {ready : Fd → Bool} {connfd : Fd}
    (hwaiting : l.listenfd ∈ s.reported ready)
    (hj : Joined connfd i (s.polled l.listenfd (s.reported ready)) s') :
    Reported l s { s' with nready := s'.nready - 1 } := by
  have hw : Wired l { s' with nready := s'.nready - 1 } :=
    { (h.polled (s.reported ready)).joined hj with }
  have hrset : s'.rset = s.reported ready := hj.rset
  have hclients : ∀ fd ∈ s'.rset, fd = l.listenfd ∨ 0 ≤ fd ∧ fd ∈ s'.client := by
    intro fd hfd
    rw [hrset] at hfd
    refine (h.of_reported fd hfd).imp_right ?_
    intro hin
    exact ⟨hin.1, (hj.mem_client hin.1).mpr (.inr hin.2)⟩
  refine ⟨hw, ?_, hclients, ⟨[.select, .fdIsset l.listenfd, .accept connfd, .fdSet connfd], ?_, rfl⟩,
    ?_⟩
  · show s'.rset ⊆ s.allset
    rw [hrset]
    exact Finset.filter_subset _ _
  · show s'.sys.trace = _
    rw [hj.trace]
    show s.sys.trace ++ [.select] ++ [.fdIsset l.listenfd] ++ [.accept connfd] ++ [.fdSet connfd] = _
    simp only [List.append_assoc]
    rfl
  · have hcard := hw.card hclients
    rw [if_pos (hrset ▸ hwaiting)] at hcard
    show s'.nready - 1 = _
    rw [hj.nready]
    show ((s.reported ready).card : Int) - 1 = _
    rw [← hrset, hcard]
    exact Int.add_sub_cancel _ _

theorem round_reads {serve : Nat → Fd → Server → Except Exit Server}
    (hserve : ∀ i fd s, Holds (Served i fd s) (fun _ => True) (serve i fd s)) (h : Wired l s) :
    Holds (ReadsReady l s) (fun _ => True) (round K l.listenfd serve s) := by
  apply round_holds
  · exact fun _ => trivial
  · intro ready _ hwaiting
    refine newClient_holds (fun connfd i s' _ hj => ?_) (fun _ => trivial) fun _ _ _ _ => trivial
    exact (h.reported_joined hwaiting hj).goOn hserve
  · intro ready _ hnone
    exact (h.reported hnone).scan hserve

/-- The variables agree after any number of rounds. -/
theorem rounds_wired {serve : Nat → Fd → Server → Except Exit Server}
    (hserve : ∀ i fd s, Holds (Served i fd s) (fun _ => True) (serve i fd s)) (l : Listening)
    (n : Nat) : Holds (Wired l) (fun _ => True) (iterate (round K l.listenfd serve) n (init l)) := by
  have hkeeps : Keeps K l.listenfd serve (Wired l) (fun _ => True) :=
    { isset := fun s fd h _ _ => h.call (.fdIsset fd) s.rset s.nready
      nready := fun s n h => { h with }
      serve := fun s i fd h hi hfd =>
        Holds.mono (hserve i fd s) (fun _ hs => h.served hs hi hfd) fun _ _ => trivial
      polled := fun s rset h => h.polled rset
      newClient := fun s h =>
        newClient_holds (fun _ _ _ _ hj => h.joined hj) (fun _ => trivial) fun _ _ _ _ => trivial
      error := fun _ _ => trivial }
  exact Holds.iterate (fun s hs => hkeeps.round hs) (wired_init l) n

/-- And the next round reads the ready clients. -/
theorem rounds_tidy {serve : Nat → Fd → Server → Except Exit Server}
    (hserve : ∀ i fd s, Holds (Served i fd s) (fun _ => True) (serve i fd s)) (l : Listening)
    (n : Nat) :
    Holds
      (fun s => Tidy l s ∧ Holds (ReadsReady l s) (fun _ => True) (round K l.listenfd serve s))
      (fun _ => True) (iterate (round K l.listenfd serve) n (init l)) := by
  refine Holds.mono (rounds_wired hserve l n) ?_ fun _ h => h
  intro s hs
  exact ⟨hs.toTidy, round_reads hserve hs⟩

end

end Server

end RubbishStore.Socket
