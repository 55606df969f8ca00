import RubbishStore.Pdo.Binding

/- The calls a client makes on an accessor, and what each does to the accessor.
   `Builder` are the calls that only fill its fields, `Call` all of them.
   `exec_terminal` and `effects_terminal` describe a terminal call under any
   environment: it opens a connection if need be, sends one statement, and
   leaves the accessor as `prepare` does, up to `connection` and the objects
   built; `exec_initObjs` is `init_objs` in closed form. -/
namespace RubbishStore.Pdo
open RubbishStore.Lib

inductive Builder (V : Type) where
  | filter (name : String) (value : Operand V)
  | filterByOp (name op : String) (value : Operand V)
  | setField (name : String) (value : Val V)
  | sort (name type : String)
  | limit (n : Nat)
  | offset (n : Nat)
  | distinct
  | loadField (fieldNames : List String)
  | userDefineWhere (sqlWhere : String) (values : List (Val V))
  | forceMaster
  deriving DecidableEq, Repr

def Builder.apply {V : Type} (a : Accessor V) : Builder V → Except PhpException (Accessor V)
  | .filter name value => a.filter name value
  | .filterByOp name op value => .ok (a.filterByOp name op value)
  | .setField name value => .ok (a.setField name value)
  | .sort name type => .ok (a.sort name type)
  | .limit n => .ok (a.limit n)
  | .offset n => .ok (a.offset n)
  | .distinct => .ok a.distinct
  | .loadField fieldNames => .ok (a.loadField fieldNames)
  | .userDefineWhere sqlWhere values => .ok (a.userDefineWhere sqlWhere values)
  | .forceMaster => .ok a.forceMaster

/-- The accessor after a builder call: one that raises leaves it as it was. -/
def Builder.after {V : Type} (a : Accessor V) (b : Builder V) : Accessor V :=
  match b.apply a with
  | .ok a' => a'
  | .error _ => a

/-- Builder and terminal calls. -/
inductive QueryCall (V : Type) where
  | build (b : Builder V)
  | terminal (t : Terminal)
  deriving DecidableEq, Repr

inductive Call (V : Type) where
  | query (c : QueryCall V)
  | findOnly
  | findByPk (id : V) (throwException : Bool)
  | findByPks (ids : List V)
  | nativeSql (sql : String) (values : List (Val V)) (readOnly : Bool)
  deriving DecidableEq, Repr

/-- What `execute_internal` hands to PDO. -/
def Accessor.sent {V : Type} (a : Accessor V) (t : Terminal) : Sent V :=
  ⟨a.sql, a.pdoValues, a.stmt t⟩

/-! What a call leaves behind. -/

namespace Self
variable {V : Type}

/-- A terminal call up to `execute_internal`. -/
def prepared (s : Self V) (t : Terminal) : Self V := { s with this := s.this.prepare t }

/-- With a connection in hand, and in the pool. -/
def connected (s : Self V) (con : Option String) (pool : List String) : Self V where
  this := { s.this with connection := con }
  statics := { s.statics with connections := pool }

/-- With more objects built. -/
def adding (s : Self V) (objs : List (Obj V)) : Self V :=
  { s with this := { s.this with built := s.this.built ++ objs } }

theorem adding_nil (s : Self V) : s.adding [] = s := by
  simp [adding]

theorem adding_adding (s : Self V) (objs objs' : List (Obj V)) :
    (s.adding objs).adding objs' = s.adding (objs ++ objs') := by
  simp [adding]

end Self

namespace MysqlAccessor
open Method

section
variable {V W : Type}

/-- A builder call, as a method. -/
def build (b : Builder V) : AccM V Unit := do
  let s ← get
  let a ← lift (b.apply s.this)
  setThis fun _ => a

/-- What a connection that is new does to the pool. -/
def pooled (s : Self V) (con : String) : Self V :=
  s.connected s.this.connection (s.statics.connections ++ [con])

variable (h : Outside V W) (s : Self V) (w : W)

@[simp] theorem exec_setThis (f : Accessor V → Accessor V) :
    exec h (setThis f) s w = (.ok (), { s with this := f s.this }, w) := rfl

@[simp] theorem effects_setThis (f : Accessor V → Accessor V) : effects h (setThis f) s w = [] := rfl

theorem exec_build (b : Builder V) :
    (exec h (build b) s w).2 = ({ s with this := b.after s.this }, w) := by
  simp only [build, exec_bind, exec_get, exec_lift, Builder.after]
  cases b.apply s.this <;> rfl

theorem exec_getConnection (con : String) :
    exec h (getConnection con) s w =
      if con ∈ s.statics.connections then (.ok (), s, w)
      else if s.statics.autoCommit = false then
        match h (.beginTransaction con) w with
        | (.ok _, w') => (.ok (), pooled s con, w')
        | (.error e, w') => (.error e, s, w')
      else (.ok (), pooled s con, w) := by
  unfold getConnection
  simp only [exec_bind, exec_get, exec_ite, exec_pure, exec_perform, exec_modify]
  split
  · rfl
  · split
    · rcases h (.beginTransaction con) w with ⟨_ | _, w'⟩ <;> rfl
    · rfl

theorem effects_getConnection (con : String) :
    effects h (getConnection con) s w =
      if con ∈ s.statics.connections then []
      else if s.statics.autoCommit = false then [.beginTransaction con]
      else [] := by
  unfold getConnection
  simp only [effects_bind, effects_get, exec_get, effects_ite, effects_pure, List.nil_append]
  split
  · rfl
  · split
    · simp only [effects_perform, effects_modify]
      split <;> rfl
    · rfl

theorem exec_connect :
    exec h connect s w =
      match exec h (getConnection s.this.pdoName) s w with
      | (.ok _, s', w') =>
        (.ok s.this.pdoName, s'.connected (some s.this.pdoName) s'.statics.connections, w')
      | (.error e, s', w') => (.error e, s', w') := by
  simp only [connect, exec_bind, exec_get, exec_setThis, exec_pure]
  rcases exec h (getConnection s.this.pdoName) s w with ⟨_ | _, s', w'⟩ <;> rfl

/-- `connect` either raises and changes nothing of the process, or names the
    connection the flags choose; then only `connection` and the pool may differ. -/
theorem exec_connect_cases :
    (∃ e w', exec h connect s w = (.error e, s, w')) ∨
      ∃ pool w', exec h connect s w =
        (.ok s.this.pdoName, s.connected (some s.this.pdoName) pool, w') := by
  simp only [connect, exec_bind, exec_get, exec_getConnection, exec_setThis, exec_pure]
  by_cases hp : s.this.pdoName ∈ s.statics.connections
  · exact .inr ⟨s.statics.connections, w, by rw [if_pos hp]; rfl⟩
  · rw [if_neg hp]
    by_cases hc : s.statics.autoCommit = false
    · rw [if_pos hc]
      rcases h (.beginTransaction s.this.pdoName) w with ⟨e | u, w'⟩
      · exact .inl ⟨e, w', rfl⟩
      · exact .inr ⟨s.statics.connections ++ [s.this.pdoName], w', rfl⟩
    · rw [if_neg hc]
      exact .inr ⟨s.statics.connections ++ [s.this.pdoName], w, rfl⟩

/-- With `auto_commit` on, connecting never raises. -/
theorem exec_connect_autoCommit (hc : s.statics.autoCommit = true) :
    ∃ pool, exec h connect s w =
      (.ok s.this.pdoName, s.connected (some s.this.pdoName) pool, w) := by
  simp only [connect, exec_bind, exec_get, exec_getConnection, exec_setThis, exec_pure]
  by_cases hp : s.this.pdoName ∈ s.statics.connections
  · exact ⟨s.statics.connections, by rw [if_pos hp]; rfl⟩
  · exact ⟨s.statics.connections ++ [s.this.pdoName], by rw [if_neg hp, if_neg (by simp [hc])]; rfl⟩

theorem effects_connect :
    effects h connect s w =
      if s.this.pdoName ∈ s.statics.connections then []
      else if s.statics.autoCommit = false then [.beginTransaction s.this.pdoName]
      else [] := by
  rw [← effects_getConnection h s w]
  simp only [connect, effects_bind h s w get, effects_get, exec_get, List.nil_append]
  exact effects_bind_silent h s w fun _ _ _ => rfl

theorem execute_not_mem_connect {con : String} {sent : Sent V} :
    .execute con sent ∉ effects h connect s w := by
  rw [effects_connect]
  split
  · simp
  · split <;> simp

/-! Sending a statement. -/

theorem exec_executeInternal (t : Terminal) :
    ∃ con pool, (exec h (executeInternal t) s w).2.1 = s.connected con pool := by
  simp only [executeInternal, exec_bind]
  rcases exec_connect_cases h s w with ⟨e, w', hc⟩ | ⟨pool, w', hc⟩
  · rw [hc]
    exact ⟨s.this.connection, s.statics.connections, rfl⟩
  · rw [hc]
    exact ⟨some s.this.pdoName, pool, rfl⟩

/-- The one statement `execute_internal` can send, and where. -/
theorem execute_mem_executeInternal {t : Terminal} {con : String} {sent : Sent V}
    (hmem : .execute con sent ∈ effects h (executeInternal t) s w) :
    con = s.this.pdoName ∧ sent = s.this.sent t := by
  simp only [executeInternal, effects_bind, List.mem_append] at hmem
  rcases hmem with hmem | hmem
  · exact absurd hmem (execute_not_mem_connect h s w)
  · rcases exec_connect_cases h s w with ⟨e, w', hc⟩ | ⟨pool, w', hc⟩
    · simp [hc] at hmem
    · simpa [hc, Accessor.sent, Accessor.stmt, Accessor.verb, Self.connected] using hmem

/-- With `auto_commit` on, it is sent. -/
theorem effects_executeInternal (t : Terminal) (hc : s.statics.autoCommit = true) :
    effects h (executeInternal t) s w = [.execute s.this.pdoName (s.this.sent t)] := by
  have hconnect : effects h connect s w = [] := by
    rw [effects_connect, hc]
    split <;> rfl
  obtain ⟨pool, hpool⟩ := exec_connect_autoCommit h s w hc
  simp only [executeInternal, effects_bind, hconnect, hpool]
  rfl

theorem effects_executeRead (t : Terminal) :
    effects h (executeRead t) s w = effects h (executeInternal t) (s.prepared t) w := by
  simp only [executeRead, effects_bind, effects_setThis, exec_setThis, List.nil_append]
  rfl

theorem effects_executeWrite (t : Terminal) :
    effects h (executeWrite t) s w = effects h (executeInternal t) (s.prepared t) w := by
  simp only [executeWrite, effects_bind h s w (setThis _), effects_setThis, exec_setThis,
    List.nil_append, effects_bind_pure]
  rfl

theorem exec_executeRead (t : Terminal) :
    exec h (executeRead t) s w = exec h (executeInternal t) (s.prepared t) w := by
  simp only [executeRead, exec_bind, exec_setThis]
  rfl

theorem exec_executeWrite (t : Terminal) :
    (exec h (executeWrite t) s w).2 = (exec h (executeInternal t) (s.prepared t) w).2 := by
  simp only [executeWrite, exec_bind h s w (setThis _), exec_setThis, exec_bind_pure]
  rfl

/-! The objects a call builds. -/

variable [PhpScalar V]

/-- An object the accessor builds while the statics are `st`. -/
def BuiltBy (a : Accessor V) (st : Statics) (o : Obj V) : Prop :=
  ∃ obj r, a.model.construct st.splitSuffix = .ok obj ∧ o = a.fill obj r

/-- `init_objs` on a row more. -/
theorem exec_initObjs_cons {obj : Obj V}
    (hc : s.this.model.construct s.statics.splitSuffix = .ok obj) (r : FetchRow V)
    (rs : List (FetchRow V)) :
    exec h (initObjs (r :: rs)) s w =
      let rest := exec h (initObjs rs) (s.adding [s.this.fill obj r]) w
      (rest.1.map (s.this.fill obj r :: ·), rest.2) := by
  simp only [initObjs, exec_bind h s w, exec_get, exec_lift, exec_setThis, hc, exec_bind_pure]
  rfl

theorem exec_initObjs (rs : List (FetchRow V)) :
    ∃ objs, (∀ o ∈ objs, BuiltBy s.this s.statics o) ∧
      (exec h (initObjs rs) s w).2 = (s.adding objs, w) := by
  induction rs generalizing s with
  | nil => exact ⟨[], by simp, by rw [s.adding_nil]; rfl⟩
  | cons r rs ih =>
    cases hc : s.this.model.construct s.statics.splitSuffix with
    | error e =>
      refine ⟨[], by simp, ?_⟩
      simp only [initObjs, exec_bind, exec_get, exec_lift, hc, s.adding_nil]
    | ok obj =>
      obtain ⟨objs, hobjs, hexec⟩ := ih (s.adding [s.this.fill obj r])
      refine ⟨s.this.fill obj r :: objs, ?_, ?_⟩
      · intro o ho
        rcases List.mem_cons.mp ho with rfl | ho
        · exact ⟨obj, r, hc, rfl⟩
        · exact hobjs o ho
      · rw [exec_initObjs_cons h s w hc]
        exact hexec.trans (by rw [Self.adding_adding]; rfl)

@[simp] theorem effects_initObjs (rs : List (FetchRow V)) : effects h (initObjs rs) s w = [] := by
  induction rs generalizing s w with
  | nil => rfl
  | cons r rs ih =>
    simp only [initObjs, effects_bind, exec_get, effects_get, exec_lift, effects_lift, exec_setThis,
      effects_setThis, effects_pure, ih, List.nil_append]
    cases s.this.model.construct s.statics.splitSuffix with
    | error e => rfl
    | ok obj =>
      simp only
      split <;> rfl

/-! Terminal calls. -/

/-- The terminal calls, their results aside. -/
def terminal : Terminal → AccM V Unit
  | .findAll => do let _ ← findAll
  | .count => do let _ ← count
  | .sum field => do let _ ← sum field
  | .max field => do let _ ← max field
  | .min field => do let _ ← min field
  | .update => do let _ ← update
  | .insert type => do let _ ← insert type
  | .delete => do let _ ← delete

/-- A terminal call performs what `execute_internal` does on the prepared
    accessor. -/
theorem effects_terminal (t : Terminal) :
    effects h (terminal t) s w = effects h (executeInternal t) (s.prepared t) w := by
  have hfind : effects h findAll s w = effects h (executeRead .findAll) s w :=
    effects_bind_silent h s w fun st s' w' => effects_initObjs h s' w' st.rows
  cases t <;>
    simp only [terminal, count, sum, max, min, update, insert, delete, effects_bind_pure, hfind,
      effects_executeRead, effects_executeWrite]

/-- A terminal call leaves the prepared accessor, with a connection and the
    objects it built. -/
theorem exec_terminal (t : Terminal) :
    ∃ con pool objs,
      (exec h (terminal t) s w).2.1 = ((s.prepared t).connected con pool).adding objs ∧
      ∀ o ∈ objs, BuiltBy s.this s.statics o := by
  have hsend := exec_executeInternal h (s.prepared t) w t
  -- every call but `find_all` ends where `execute_internal` does
  have hother : (exec h (terminal t) s w).2 = (exec h (executeInternal t) (s.prepared t) w).2 →
      ∃ con pool objs,
        (exec h (terminal t) s w).2.1 = ((s.prepared t).connected con pool).adding objs ∧
        ∀ o ∈ objs, BuiltBy s.this s.statics o := by
    intro heq
    obtain ⟨con, pool, hsend⟩ := hsend
    exact ⟨con, pool, [], by rw [heq, hsend, Self.adding_nil], by simp⟩
  cases t with
  | findAll =>
    rw [terminal, exec_bind_pure, findAll, exec_bind, exec_executeRead]
    generalize exec h (executeInternal _) _ w = r at hsend
    obtain ⟨con, pool, hsend⟩ := hsend
    obtain ⟨_ | st, s', w'⟩ := r
    · exact ⟨con, pool, [], by rw [Self.adding_nil]; exact hsend, by simp⟩
    · obtain ⟨objs, hobjs, hexec⟩ := exec_initObjs h s' w' st.rows
      refine ⟨con, pool, objs, ?_, ?_⟩
      · rw [hexec, ← hsend]
      · intro o ho
        obtain ⟨obj, r, hc, rfl⟩ := hobjs o ho
        replace hsend : s' = (s.prepared .findAll).connected con pool := hsend
        rw [hsend, Self.connected, Self.prepared, Accessor.prepare_eq] at hc ⊢
        exact ⟨obj, r, hc, rfl⟩
  | _ =>
    refine hother ?_
    simp only [terminal, count, sum, max, min, update, insert, delete, exec_bind_pure,
      exec_executeRead, exec_executeWrite]

/-- A builder or terminal call, its result aside. -/
def queryCall : QueryCall V → AccM V Unit
  | .build b => build b
  | .terminal t => terminal t

/-- With `auto_commit` on, a terminal call sends its statement. -/
theorem effects_terminal_sent (t : Terminal) (hc : s.statics.autoCommit = true) :
    effects h (terminal t) s w =
      [.execute (s.this.prepare t).pdoName ((s.this.prepare t).sent t)] := by
  rw [effects_terminal]
  exact effects_executeInternal h (s.prepared t) w t hc

/-- The one statement a terminal call can send, and where. -/
theorem execute_mem_terminal {t : Terminal} {con : String} {sent : Sent V}
    (hmem : .execute con sent ∈ effects h (terminal t) s w) :
    con = (s.this.prepare t).pdoName ∧ sent = (s.this.prepare t).sent t := by
  rw [effects_terminal] at hmem
  exact execute_mem_executeInternal h _ w hmem

end

end MysqlAccessor

end RubbishStore.Pdo
