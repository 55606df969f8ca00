import RubbishStore.Lib.Runs
import RubbishStore.Pdo.Calls

/- Transactions over the connection pool. `transactional` is PDO with its
   transactions: a statement on a connection with an open transaction waits for
   its commit, any other takes effect at once, and `beginTransaction`, `commit`
   and `rollBack` raise on a connection in the wrong state. `begin_transaction`
   only changes the static `auto_commit`; a transaction is opened with a new
   connection and never on a pooled one. A section of a run is what stands
   between a `begin_transaction` and the next `commit` or `roll_back`. -/
namespace RubbishStore.Pdo
open RubbishStore.Lib
open MysqlAccessor Method

/-- The connections with an open transaction, and the statements that took
    effect (`durable`) or wait for a commit (`pending`). -/
structure PdoState (V : Type) where
  opened : List String := []
  durable : List (String × Eff V) := []
  pending : List (String × Eff V) := []
  /-- ghost: the connections statements were executed on outside a transaction -/
  bare : List String := []

section
variable {V : Type}

/-- A statement is executed on a connection; one that raises has no effect. -/
def PdoState.log (p : PdoState V) (con : String) (e : Eff V) (accepted : Bool) : PdoState V :=
  let entry := if accepted then [(con, e)] else []
  if con ∈ p.opened then { p with pending := p.pending ++ entry }
  else { p with durable := p.durable ++ entry, bare := p.bare ++ [con] }

/-- The end of a connection's transaction, with the statements `kept` of it. -/
def PdoState.close (p : PdoState V) (con : String) (kept : List (String × Eff V)) : PdoState V :=
  { p with
    opened := p.opened.filter (· ≠ con)
    durable := p.durable ++ kept
    pending := p.pending.filter (·.1 ≠ con) }

/-- What the server answers to statements. -/
abbrev Answering (V : Type) : Type := PdoState V → Eff V → Except PhpException (Fetched V)

/-- PDO with transactions; the answers to statements are those of `answer`. -/
def transactional (answer : Answering V) : Outside V (PdoState V)
  | .beginTransaction con, p =>
    if con ∈ p.opened then (.error { message := "There is already an active transaction" }, p)
    else (.ok (), { p with opened := p.opened ++ [con] })
  | .commit con, p =>
    if con ∈ p.opened then (.ok (), p.close con (p.pending.filter (·.1 = con)))
    else (.error { message := "There is no active transaction" }, p)
  | .rollBack con, p =>
    if con ∈ p.opened then (.ok (), p.close con [])
    else (.error { message := "There is no active transaction" }, p)
  | .execute con sent, p =>
    let r := answer p (.execute con sent)
    (r, p.log con (.execute con sent) (r matches .ok _))
  | .executeNative con sql values, p =>
    let r := answer p (.executeNative con sql values)
    (r, p.log con (.executeNative con sql values) (r matches .ok _))
  | .lastInsertId _, p => (.ok none, p)
  | .cacheGet _, p => (.ok none, p)
  | .cacheGetMulti _, p => (.ok [], p)
  | .cacheSet _ _ _, p | .cacheDelete _, p => (.ok (), p)

/-- What a process does: the three static calls, and statements of any accessor. -/
inductive TxEvent (V : Type) where
  | beginTransaction
  | commit
  | rollBack
  | statement (a : Accessor V) (t : Terminal)
  | native (a : Accessor V) (sql : String) (values : List (Val V)) (readOnly : Bool)

/-- The process and PDO; inside a section, `since` is what was durable when it began. -/
structure TxState (V : Type) where
  statics : Statics := {}
  pdo : PdoState V := {}
  since : Option (List (String × Eff V)) := none

/-- The result of an event, and the process and PDO after it. -/
def TxState.perform (answer : Answering V) (x : TxState V) :
    TxEvent V → Except PhpException Unit × Statics × PdoState V
  | .beginTransaction => exec (transactional answer) MysqlAccessor.beginTransaction x.statics x.pdo
  | .commit => exec (transactional answer) MysqlAccessor.commit x.statics x.pdo
  | .rollBack => exec (transactional answer) MysqlAccessor.rollBack x.statics x.pdo
  | .statement a t =>
    let r := exec (transactional answer) (executeInternal t) ⟨a, x.statics⟩ x.pdo
    (r.1.map fun _ => (), r.2.1.statics, r.2.2)
  | .native a sql values readOnly =>
    let r := exec (transactional answer) (nativeSql sql values readOnly) ⟨a, x.statics⟩ x.pdo
    (r.1.map fun _ => (), r.2.1.statics, r.2.2)

/-- A section begins at the first `begin_transaction` and ends at a `commit` or
    `roll_back`, whether it raises or not. -/
def TxState.sectionAfter (x : TxState V) : TxEvent V → Option (List (String × Eff V))
  | .beginTransaction => x.since.or (some x.pdo.durable)
  | .commit | .rollBack => none
  | .statement _ _ | .native _ _ _ _ => x.since

def TxState.step (answer : Answering V) (x : TxState V) (e : TxEvent V) :
    TxState V :=
  let r := x.perform answer e
  ⟨r.2.1, r.2.2, x.sectionAfter e⟩

/-- What is expected of an event inside a section: a statement runs in a
    transaction, `commit` and `roll_back` find every connection in one, and
    after a `roll_back` only what was durable before the section remains. -/
def TxState.Right (answer : Answering V) (x : TxState V) (e : TxEvent V) : Prop :=
  ∀ before, x.since = some before →
    match e with
    | .beginTransaction => True
    | .statement _ _ | .native _ _ _ _ => (x.step answer e).pdo.bare = x.pdo.bare
    | .commit => (x.perform answer e).1 = .ok ()
    | .rollBack => (x.perform answer e).1 = .ok () ∧
        (x.step answer e).pdo.durable = before ∧ (x.step answer e).pdo.pending = []

/-- A `begin_transaction` finds every pooled connection in a transaction already;
    so it does where the pool is empty. -/
def TxState.AllOpen (x : TxState V) : TxEvent V → Prop
  | .beginTransaction => ∀ con ∈ x.statics.connections, con ∈ x.pdo.opened
  | .commit | .rollBack | .statement _ _ | .native _ _ _ _ => True

/-! What the events keep. -/

/-- Open transactions and waiting statements belong to pooled connections. -/
structure Pooled (st : Statics) (p : PdoState V) : Prop where
  nodup : st.connections.Nodup
  opened : ∀ con ∈ p.opened, con ∈ st.connections
  pending : ∀ x ∈ p.pending, x.1 ∈ p.opened

/-- Every pooled connection has an open transaction. -/
def AllIn (st : Statics) (p : PdoState V) : Prop := ∀ con ∈ st.connections, con ∈ p.opened

/-- Connecting gives a pooled connection; with `auto_commit` off it is in a
    transaction if every pooled one is. -/
theorem exec_connect_transactional (answer : Answering V) {s : Self V} {p : PdoState V}
    (hp : Pooled s.statics p) :
    ∃ pool p', exec (transactional answer) connect s p =
        (.ok s.this.pdoName, s.connected (some s.this.pdoName) pool, p') ∧
      Pooled { s.statics with connections := pool } p' ∧
      p'.durable = p.durable ∧ p'.bare = p.bare ∧ (∀ con ∈ s.statics.connections, con ∈ pool) ∧
      (∀ con ∈ s.statics.connections, con ∉ p.opened → con ∉ p'.opened) ∧
      (s.statics.autoCommit = false → AllIn s.statics p →
        s.this.pdoName ∈ p'.opened ∧ AllIn { s.statics with connections := pool } p') := by
  have hconnect := exec_connect (transactional answer) s p
  rw [exec_getConnection] at hconnect
  by_cases hin : s.this.pdoName ∈ s.statics.connections
  · rw [if_pos hin] at hconnect
    exact ⟨s.statics.connections, p, hconnect, hp, rfl, rfl, fun _ h => h, fun _ _ h => h,
      fun _ hall => ⟨hall _ hin, hall⟩⟩
  · have hclosed : s.this.pdoName ∉ p.opened := fun h => hin (hp.opened _ h)
    have hnodup : (s.statics.connections ++ [s.this.pdoName]).Nodup :=
      List.nodup_append.mpr ⟨hp.nodup, by simp, by rintro a ha b hb rfl; simp at hb; exact hin (hb ▸ ha)⟩
    have hmono : ∀ con ∈ s.statics.connections, con ∈ s.statics.connections ++ [s.this.pdoName] :=
      fun con h => List.mem_append_left _ h
    rw [if_neg hin] at hconnect
    by_cases hauto : s.statics.autoCommit = false
    · rw [if_pos hauto] at hconnect
      simp only [transactional, if_neg hclosed] at hconnect
      refine ⟨_, _, hconnect, ⟨hnodup, ?_, ?_⟩, rfl, rfl, hmono, ?_, fun _ hall => ⟨by simp, ?_⟩⟩
      · intro con hcon
        rcases List.mem_append.mp hcon with hcon | hcon
        · exact hmono con (hp.opened con hcon)
        · exact List.mem_append_right _ hcon
      · exact fun x hx => List.mem_append_left _ (hp.pending x hx)
      · intro con hcon hnot hmem
        rcases List.mem_append.mp hmem with hmem | hmem
        · exact hnot hmem
        · exact hin (List.mem_singleton.mp hmem ▸ hcon)
      · intro con hcon
        rcases List.mem_append.mp hcon with hcon | hcon
        · exact List.mem_append_left _ (hall con hcon)
        · exact List.mem_append_right _ hcon
    · rw [if_neg hauto] at hconnect
      exact ⟨_, p, hconnect, ⟨hnodup, fun con h => hmono con (hp.opened con h), hp.pending⟩, rfl, rfl,
        hmono, fun _ _ h => h, fun hoff => absurd hoff hauto⟩

/-- A statement on a pooled connection keeps the pool; in a transaction it only
    waits. -/
theorem Pooled.log {st : Statics} {p : PdoState V} (hp : Pooled st p) (con : String) (e : Eff V)
    (accepted : Bool) :
    Pooled st (p.log con e accepted) ∧ (p.log con e accepted).opened = p.opened ∧
      (con ∈ p.opened → (p.log con e accepted).durable = p.durable ∧
        (p.log con e accepted).bare = p.bare) := by
  unfold PdoState.log
  by_cases hopen : con ∈ p.opened
  · rw [if_pos hopen]
    refine ⟨⟨hp.nodup, hp.opened, ?_⟩, rfl, fun _ => ⟨rfl, rfl⟩⟩
    intro x hx
    rcases List.mem_append.mp hx with hx | hx
    · exact hp.pending x hx
    · cases accepted
      · simp at hx
      · rw [List.mem_singleton.mp hx]
        exact hopen
  · rw [if_neg hopen]
    exact ⟨⟨hp.nodup, hp.opened, hp.pending⟩, rfl, fun h => absurd h hopen⟩

/-- What a statement does to the process and to PDO: a connection of the pool is
    found or opened, and the statement is executed on it. -/
structure Sends (st st' : Statics) (p p' : PdoState V) : Prop where
  autoCommit : st'.autoCommit = st.autoCommit
  pooled : Pooled st' p'
  grows : ∀ con ∈ st.connections, con ∈ st'.connections
  closed : ∀ con ∈ st.connections, con ∉ p.opened → con ∉ p'.opened
  inTransaction : st.autoCommit = false → AllIn st p →
    AllIn st' p' ∧ p'.durable = p.durable ∧ p'.bare = p.bare

theorem sends_perform (answer : Answering V) {x : TxState V} (hp : Pooled x.statics x.pdo)
    {e : TxEvent V}
    (he : (∃ a t, e = .statement a t) ∨ ∃ a sql values readOnly, e = .native a sql values readOnly) :
    Sends x.statics (x.perform answer e).2.1 x.pdo (x.perform answer e).2.2 := by
  -- both kinds connect first, and then send one statement on that connection
  have hlog : ∀ (s : Self V), s.statics = x.statics → ∃ pool p',
      exec (transactional answer) connect s x.pdo =
        (.ok s.this.pdoName, s.connected (some s.this.pdoName) pool, p') ∧
      ∀ sent accepted, Sends x.statics { x.statics with connections := pool } x.pdo
        (p'.log s.this.pdoName sent accepted) := by
    intro s hs
    rw [← hs] at hp ⊢
    obtain ⟨pool, p', hexec, hp', hdurable, hbare, hgrows, hclosed, hin⟩ :=
      exec_connect_transactional answer hp
    refine ⟨pool, p', hexec, fun sent accepted => ?_⟩
    obtain ⟨hpooled, hopened, hwaits⟩ := hp'.log s.this.pdoName sent accepted
    refine ⟨rfl, hpooled, hgrows, ?_, ?_⟩
    · rw [hopened]
      exact hclosed
    · intro hauto hall
      obtain ⟨hname, hall'⟩ := hin hauto hall
      obtain ⟨hdurable', hbare'⟩ := hwaits hname
      refine ⟨?_, hdurable'.trans hdurable, hbare'.trans hbare⟩
      unfold AllIn
      rw [hopened]
      exact hall'
  rcases he with ⟨a, t, rfl⟩ | ⟨a, sql, values, readOnly, rfl⟩
  · obtain ⟨pool, p', hexec, hsends⟩ := hlog ⟨a, x.statics⟩ rfl
    simp only [TxState.perform, executeInternal, exec_bind, hexec, exec_get, exec_perform]
    exact hsends _ _
  · obtain ⟨pool, p', hexec, hsends⟩ :=
      hlog ⟨{ a with readOnly := readOnly }, x.statics⟩ rfl
    simp only [TxState.perform, nativeSql]
    rw [exec_bind, exec_setThis]
    simp only
    rw [exec_bind, hexec]
    simp only [exec_bind_pure, exec_perform]
    exact hsends _ _

/-! `commit` and `roll_back`: one call on each connection of the pool. -/

/-- `commit` (`kept` all) or `rollBack` (`kept` nothing) on one connection. -/
def closeOne (keep : Bool) (con : String) (p : PdoState V) : Except PhpException Unit × PdoState V :=
  if con ∈ p.opened then (.ok (), p.close con (if keep then p.pending.filter (·.1 = con) else []))
  else (.error { message := "There is no active transaction" }, p)

/-- On each connection in turn, until one raises. -/
def closeEach (keep : Bool) : List String → PdoState V → Except PhpException Unit × PdoState V
  | [], p => (.ok (), p)
  | con :: cons, p =>
    match closeOne keep con p with
    | (.ok _, p') => closeEach keep cons p'
    | (.error e, p') => (.error e, p')

theorem exec_onEach {answer : Answering V} {keep : Bool} {call : String → Php V Statics Unit}
    (hcall : ∀ con st p, exec (transactional answer) (call con) st p =
      ((closeOne keep con p).1, st, (closeOne keep con p).2))
    (cons : List String) (st : Statics) (p : PdoState V) :
    exec (transactional answer) (onEach call cons) st p =
      ((closeEach keep cons p).1, st, (closeEach keep cons p).2) := by
  induction cons generalizing p with
  | nil => rfl
  | cons con cons ih =>
    rw [onEach, exec_bind, hcall, closeEach]
    rcases closeOne keep con p with ⟨_ | _, p'⟩
    · rfl
    · exact ih p'

theorem exec_commit (answer : Answering V) (st : Statics) (p : PdoState V) :
    exec (transactional answer) MysqlAccessor.commit st p =
      ((closeEach true st.connections p).1, st, (closeEach true st.connections p).2) := by
  rw [MysqlAccessor.commit, exec_bind, exec_get]
  refine exec_onEach (fun con st p => ?_) st.connections st p
  simp only [exec_perform, transactional, closeOne, if_true]

theorem exec_rollBack (answer : Answering V) (st : Statics) (p : PdoState V) :
    exec (transactional answer) MysqlAccessor.rollBack st p =
      ((closeEach false st.connections p).1, st, (closeEach false st.connections p).2) := by
  rw [MysqlAccessor.rollBack, exec_bind, exec_get]
  refine exec_onEach (fun con st p => ?_) st.connections st p
  simp only [exec_perform, transactional, closeOne]
  split <;> rfl

/-- Closing opens nothing, and what waits still belongs to open connections. -/
theorem closeEach_keeps (keep : Bool) (cons : List String) {p : PdoState V}
    (hp : ∀ x ∈ p.pending, x.1 ∈ p.opened) :
    (∀ con ∈ (closeEach keep cons p).2.opened, con ∈ p.opened) ∧
      ∀ x ∈ (closeEach keep cons p).2.pending, x.1 ∈ (closeEach keep cons p).2.opened := by
  induction cons generalizing p with
  | nil => exact ⟨fun _ h => h, hp⟩
  | cons con cons ih =>
    rw [closeEach, closeOne]
    by_cases hopen : con ∈ p.opened
    · rw [if_pos hopen]
      obtain ⟨hopened, hpending⟩ := ih (p := p.close con (if keep then p.pending.filter (·.1 = con) else []))
        (by
          intro x hx
          simp only [PdoState.close, List.mem_filter, decide_eq_true_eq] at hx ⊢
          exact ⟨hp x hx.1, hx.2⟩)
      exact ⟨fun c hc => (List.mem_filter.mp (hopened c hc)).1, hpending⟩
    · rw [if_neg hopen]
      exact ⟨fun _ h => h, hp⟩

/-- It goes well on distinct connections exactly when all have a transaction. -/
theorem closeEach_ok (keep : Bool) {cons : List String} (hnd : cons.Nodup) (p : PdoState V) :
    (closeEach keep cons p).1 = .ok () ↔ ∀ con ∈ cons, con ∈ p.opened := by
  induction cons generalizing p with
  | nil => simp [closeEach]
  | cons con cons ih =>
    obtain ⟨hcon, hnd⟩ := List.nodup_cons.mp hnd
    rw [closeEach, closeOne]
    by_cases hopen : con ∈ p.opened
    · rw [if_pos hopen]
      simp only
      rw [ih hnd]
      -- the other connections are not the one just closed
      have hother : ∀ c ∈ cons, c ≠ con := by
        rintro c hc rfl
        exact hcon hc
      constructor
      · intro h c hc
        rcases List.mem_cons.mp hc with rfl | hc
        · exact hopen
        · exact (List.mem_filter.mp (h c hc)).1
      · intro h c hc
        simp only [PdoState.close, List.mem_filter, decide_eq_true_eq]
        exact ⟨h c (List.mem_cons_of_mem _ hc), hother c hc⟩
    · rw [if_neg hopen]
      simp only [reduceCtorEq, false_iff]
      exact fun h => hopen (h con (by simp))

/-- Afterwards none of them has a transaction. -/
theorem closeEach_closed (keep : Bool) (cons : List String) {p : PdoState V}
    (hok : (closeEach keep cons p).1 = .ok ()) :
    ∀ con ∈ (closeEach keep cons p).2.opened, con ∈ p.opened ∧ con ∉ cons := by
  induction cons generalizing p with
  | nil => exact fun con h => ⟨h, by simp⟩
  | cons con cons ih =>
    rw [closeEach, closeOne] at hok ⊢
    by_cases hopen : con ∈ p.opened
    · rw [if_pos hopen] at hok ⊢
      intro c hc
      obtain ⟨hc1, hc2⟩ := ih hok c hc
      simp only [PdoState.close, List.mem_filter, decide_eq_true_eq] at hc1
      exact ⟨hc1.1, by simp [hc1.2, hc2]⟩
    · rw [if_neg hopen] at hok
      cases hok

/-- A rollback makes nothing durable. -/
theorem closeEach_rollBack (cons : List String) (p : PdoState V) :
    (closeEach false cons p).2.durable = p.durable := by
  induction cons generalizing p with
  | nil => rfl
  | cons con cons ih =>
    rw [closeEach, closeOne]
    by_cases hopen : con ∈ p.opened
    · rw [if_pos hopen]
      simp only
      rw [ih]
      exact List.append_nil _
    · rw [if_neg hopen]

/-! Runs. -/

/-- What holds of the pool in every state, and inside a section. -/
structure TxState.Inv (x : TxState V) : Prop where
  pooled : Pooled x.statics x.pdo
  inside : ∀ before, x.since = some before →
    x.statics.autoCommit = false ∧ AllIn x.statics x.pdo ∧ x.pdo.durable = before

theorem TxState.inv_empty : (({} : TxState V)).Inv :=
  ⟨⟨List.nodup_nil, by simp, by simp⟩, by simp⟩

theorem Pooled.close {st : Statics} {p : PdoState V} (hp : Pooled st p) (keep : Bool) :
    Pooled st (closeEach keep st.connections p).2 := by
  obtain ⟨hopened, hpending⟩ := closeEach_keeps keep st.connections hp.pending
  exact ⟨hp.nodup, fun con h => hp.opened con (hopened con h), hpending⟩

/-- One event keeps the invariant, where a `begin_transaction` finds every pooled
    connection in a transaction. -/
theorem TxState.Inv.step {answer : Answering V} {x : TxState V} (hx : x.Inv) {e : TxEvent V}
    (he : x.AllOpen e) : (x.step answer e).Inv := by
  have hstatement : (∃ a t, e = .statement a t) ∨
      (∃ a sql values readOnly, e = .native a sql values readOnly) →
      x.sectionAfter e = x.since → (x.step answer e).Inv := by
    intro hkind hsame
    have hsends := sends_perform answer hx.pooled hkind
    refine ⟨hsends.pooled, fun before hbefore => ?_⟩
    obtain ⟨hauto, hall, hdurable⟩ := hx.inside before (hsame.symm.trans hbefore)
    obtain ⟨hall', hdurable', -⟩ := hsends.inTransaction hauto hall
    exact ⟨hsends.autoCommit.trans hauto, hall', hdurable'.trans hdurable⟩
  cases e with
  | beginTransaction =>
    refine ⟨⟨hx.pooled.nodup, hx.pooled.opened, hx.pooled.pending⟩, fun before hbefore => ?_⟩
    refine ⟨rfl, he, ?_⟩
    cases hs : x.since with
    | none =>
      simp only [TxState.step, TxState.sectionAfter, hs, Option.none_or, Option.some.injEq] at hbefore
      exact hbefore
    | some before' =>
      simp only [TxState.step, TxState.sectionAfter, hs, Option.some_or, Option.some.injEq] at hbefore
      obtain rfl := hbefore
      exact (hx.inside _ hs).2.2
  | commit =>
    refine ⟨?_, fun before hbefore => by cases hbefore⟩
    simp only [TxState.step, TxState.perform, exec_commit]
    exact hx.pooled.close true
  | rollBack =>
    refine ⟨?_, fun before hbefore => by cases hbefore⟩
    simp only [TxState.step, TxState.perform, exec_rollBack]
    exact hx.pooled.close false
  | statement a t => exact hstatement (.inl ⟨a, t, rfl⟩) rfl
  | native a sql values readOnly => exact hstatement (.inr ⟨a, sql, values, readOnly, rfl⟩) rfl

theorem TxState.Inv.right (answer : Answering V) {x : TxState V} (hx : x.Inv) (e : TxEvent V) :
    x.Right answer e := by
  intro before hbefore
  obtain ⟨hauto, hall, hdurable⟩ := hx.inside before hbefore
  cases e with
  | beginTransaction => trivial
  | commit =>
    simp only [TxState.perform, exec_commit]
    exact (closeEach_ok true hx.pooled.nodup x.pdo).mpr hall
  | rollBack =>
    have hok := (closeEach_ok false hx.pooled.nodup x.pdo).mpr hall
    obtain ⟨-, hpending⟩ := closeEach_keeps false x.statics.connections hx.pooled.pending
    simp only [TxState.step, TxState.perform, exec_rollBack]
    refine ⟨hok, (closeEach_rollBack _ _).trans hdurable, ?_⟩
    -- what still waits belongs to an open connection, and none is left open
    refine List.eq_nil_iff_forall_not_mem.mpr fun y hy => ?_
    obtain ⟨hopen, hnot⟩ := closeEach_closed false x.statics.connections hok _ (hpending y hy)
    exact hnot (hx.pooled.opened _ hopen)
  | statement a t =>
    exact ((sends_perform answer hx.pooled (.inl ⟨a, t, rfl⟩)).inTransaction hauto hall).2.2
  | native a sql values readOnly =>
    exact ((sends_perform answer hx.pooled (.inr ⟨a, sql, values, readOnly, rfl⟩)).inTransaction
      hauto hall).2.2

/-- Every section of the run is closed by a `commit` or a `roll_back`. -/
def Closed : List (TxEvent V) → Prop
  | [] => True
  | .beginTransaction :: es => (.commit ∈ es ∨ .rollBack ∈ es) ∧ Closed es
  | .commit :: es | .rollBack :: es | .statement _ _ :: es | .native _ _ _ _ :: es => Closed es

/-- A pooled connection outside a transaction stays so until the section's end,
    which then raises. -/
theorem TxState.not_right_of_closed (answer : Answering V) {x : TxState V}
    (hp : Pooled x.statics x.pdo) {before : List (String × Eff V)} (hs : x.since = some before)
    {con : String} (hcon : con ∈ x.statics.connections) (hopen : con ∉ x.pdo.opened)
    {es : List (TxEvent V)} (hes : .commit ∈ es ∨ .rollBack ∈ es) :
    ¬ AtEach (TxState.step answer) (TxState.Right answer) x es := by
  induction es generalizing x with
  | nil => simp at hes
  | cons e es ih =>
    rintro ⟨hright, hrest⟩
    have hfails : ∀ keep, (closeEach keep x.statics.connections x.pdo).1 ≠ .ok () :=
      fun keep hok => hopen ((closeEach_ok keep hp.nodup x.pdo).mp hok con hcon)
    have hstatement : (∃ a t, e = .statement a t) ∨
        (∃ a sql values readOnly, e = .native a sql values readOnly) →
        x.sectionAfter e = x.since → (.commit ∈ es ∨ .rollBack ∈ es) → False := by
      intro hkind hsame hes'
      have hsends := sends_perform answer hp hkind
      exact ih hsends.pooled (hsame.trans hs) (hsends.grows con hcon) (hsends.closed con hcon hopen)
        hes' hrest
    cases e with
    | beginTransaction =>
      refine ih (x := x.step answer .beginTransaction) ⟨hp.nodup, hp.opened, hp.pending⟩ ?_ hcon hopen
        (by simpa using hes) hrest
      simp only [TxState.step, TxState.sectionAfter, hs, Option.some_or]
    | commit =>
      have hok := hright before hs
      simp only [TxState.perform, exec_commit] at hok
      exact hfails true hok
    | rollBack =>
      have hok := (hright before hs).1
      simp only [TxState.perform, exec_rollBack] at hok
      exact hfails false hok
    | statement a t => exact hstatement (.inl ⟨a, t, rfl⟩) rfl (by simpa using hes)
    | native a sql values readOnly =>
      exact hstatement (.inr ⟨a, sql, values, readOnly, rfl⟩) rfl (by simpa using hes)

/-- In a closed run that is right, no section begins on a connection outside a
    transaction. -/
theorem TxState.allOpen_of_right (answer : Answering V) {x : TxState V} (hx : x.Inv)
    {e : TxEvent V} {es : List (TxEvent V)} (hclosed : Closed (e :: es))
    (hrest : AtEach (TxState.step answer) (TxState.Right answer) (x.step answer e) es) :
    x.AllOpen e := by
  cases e with
  | beginTransaction =>
    by_contra hnot
    simp only [TxState.AllOpen, not_forall] at hnot
    obtain ⟨con, hcon, hout⟩ := hnot
    -- the section is open from here on, and its end finds the connection
    have hsome : ∃ before, (x.step answer .beginTransaction).since = some before := by
      cases hs : x.since with
      | none => exact ⟨x.pdo.durable, by simp [TxState.step, TxState.sectionAfter, hs]⟩
      | some b => exact ⟨b, by simp [TxState.step, TxState.sectionAfter, hs]⟩
    obtain ⟨before, hs⟩ := hsome
    have hpool : Pooled (x.step answer .beginTransaction).statics
        (x.step answer .beginTransaction).pdo :=
      ⟨hx.pooled.nodup, hx.pooled.opened, hx.pooled.pending⟩
    exact TxState.not_right_of_closed answer hpool hs hcon hout hclosed.1 hrest
  | _ => trivial

theorem Closed.tail {e : TxEvent V} {es : List (TxEvent V)} (h : Closed (e :: es)) : Closed es := by
  cases e <;> first | exact h.2 | exact h

theorem TxState.atEach_allOpen (answer : Answering V) {x : TxState V} (hx : x.Inv)
    {es : List (TxEvent V)} (hclosed : Closed es)
    (hright : AtEach (TxState.step answer) (TxState.Right answer) x es) :
    AtEach (TxState.step answer) TxState.AllOpen x es := by
  induction es generalizing x with
  | nil => trivial
  | cons e es ih =>
    have hopen : x.AllOpen e := TxState.allOpen_of_right answer hx hclosed hright.2
    exact ⟨hopen, ih (hx.step hopen) hclosed.tail hright.2⟩

/-- In every run in which `begin_transaction` finds no pooled connection outside
    a transaction, every section is transactional: its statements run in open
    transactions, its end reaches only open connections, and a `roll_back`
    leaves what was durable when it began. A run whose sections are all closed
    is transactional in no other case. -/
theorem sections_transactional (answer : Answering V) (es : List (TxEvent V)) :
    (AtEach (TxState.step answer) TxState.AllOpen {} es →
      AtEach (TxState.step answer) (TxState.Right answer) {} es) ∧
    (Closed es → AtEach (TxState.step answer) (TxState.Right answer) {} es →
      AtEach (TxState.step answer) TxState.AllOpen {} es) := by
  refine ⟨fun hopen => ?_, fun hclosed hright => ?_⟩
  · exact atEach_of_inv TxState.inv_empty hopen (fun _ _ hx he => hx.step he)
      fun x e hx _ => hx.right answer e
  · exact TxState.atEach_allOpen answer TxState.inv_empty hclosed hright

end

/-- A statement, then a section on the same connection: it is not in a
    transaction, and the section's `roll_back` undoes nothing. -/
theorem pooled_connection_stays_bare :
    ¬ AtEach (TxState.step fun _ _ => .ok {}) (TxState.Right fun _ _ => .ok {}) {}
      [.statement (Accessor.fresh userClass "") .count, .beginTransaction,
        .statement (Accessor.fresh userClass "") .delete, .rollBack] := by
  rintro ⟨-, -, hbare, -⟩
  have hsame := hbare _ rfl
  exact absurd hsame (by decide)

end RubbishStore.Pdo
