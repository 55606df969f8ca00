import RubbishStore.Lib.Runs

/- Programs as effect trees, and methods over them.
   `Prog E R α` performs effects `e : E`, each answered by some `R e`, and
   returns an `α`. An environment (`Handler`) answers the effects one by one:
   `run` is the result and the environment after it, `trace` the effects
   performed. `Every P` says that whatever the answers, only effects in `P` are
   performed.
   A `Method` is the body of a routine with local state `σ` that may throw: the
   local state survives a throw, as the fields of an object do. `exec` runs a
   method under a handler; the `exec_*` lemmas evaluate it statement by
   statement, and a caller never unfolds the monad. -/
namespace RubbishStore.Lib

inductive Prog (E : Type) (R : E → Type) (α : Type) : Type where
  | ret (a : α)
  | vis (e : E) (k : R e → Prog E R α)

/-- An environment: the answer to an effect, and the environment after it. -/
abbrev Handler (E : Type) (R : E → Type) (W : Type) : Type := (e : E) → W → R e × W

namespace Prog
variable {E : Type} {R : E → Type} {α β W : Type}

def bind : Prog E R α → (α → Prog E R β) → Prog E R β
  | .ret a, f => f a
  | .vis e k, f => .vis e (fun r => (k r).bind f)

/-- The result under `h`, and the environment after it. -/
def run (h : Handler E R W) : Prog E R α → W → α × W
  | .ret a, w => (a, w)
  | .vis e k, w => (k (h e w).1).run h (h e w).2

/-- The effects performed under `h`, in order. -/
def trace (h : Handler E R W) : Prog E R α → W → List E
  | .ret _, _ => []
  | .vis e k, w => e :: (k (h e w).1).trace h (h e w).2

/-- Whatever the answers, only effects in `P` are performed. -/
def Every (P : E → Prop) : Prog E R α → Prop
  | .ret _ => True
  | .vis e k => P e ∧ ∀ r, (k r).Every P

@[simp] theorem bind_ret (a : α) (f : α → Prog E R β) : (Prog.ret a).bind f = f a := rfl

@[simp] theorem bind_vis (e : E) (k : R e → Prog E R α) (f : α → Prog E R β) :
    (Prog.vis e k).bind f = .vis e (fun r => (k r).bind f) := rfl

theorem run_bind (h : Handler E R W) (p : Prog E R α) (f : α → Prog E R β) (w : W) :
    (p.bind f).run h w = (f (p.run h w).1).run h (p.run h w).2 := by
  induction p generalizing w with
  | ret a => rfl
  | vis e k ih => exact ih _ _

theorem trace_bind (h : Handler E R W) (p : Prog E R α) (f : α → Prog E R β) (w : W) :
    (p.bind f).trace h w = p.trace h w ++ (f (p.run h w).1).trace h (p.run h w).2 := by
  induction p generalizing w with
  | ret a => rfl
  | vis e k ih => simp only [bind_vis, trace, run, ih, List.cons_append]

theorem Every.bind {P : E → Prop} {p : Prog E R α} {f : α → Prog E R β} (hp : p.Every P)
    (hf : ∀ a, (f a).Every P) : (p.bind f).Every P := by
  induction p with
  | ret a => exact hf a
  | vis e k ih => exact ⟨hp.1, fun r => ih r (hp.2 r)⟩

/-- Under any environment, the effects performed are among those allowed. -/
theorem Every.trace {P : E → Prop} {h : Handler E R W} {p : Prog E R α} (hp : p.Every P) (w : W) :
    ∀ e ∈ p.trace h w, P e := by
  induction p generalizing w with
  | ret a => intro e he; simp [Prog.trace] at he
  | vis e k ih =>
    intro x hx
    rcases List.mem_cons.mp hx with rfl | hx
    · exact hp.1
    · exact ih _ (hp.2 _) _ x hx

end Prog

/-- A method body with local state `σ`, effects `e : E` answered by an `A e` or
    an error, and errors in `ε`. A throw keeps the local state. -/
def Method (E : Type) (A : E → Type) (ε σ α : Type) : Type :=
  σ → Prog E (fun e => Except ε (A e)) (Except ε α × σ)

namespace Method
variable {E : Type} {A : E → Type} {ε σ τ α β W : Type}

/-- What follows a call: its continuation, or its error as it stands. -/
def andThen (f : α → Method E A ε σ β) :
    Except ε α × σ → Prog E (fun e => Except ε (A e)) (Except ε β × σ)
  | (.ok a, s) => f a s
  | (.error e, s) => .ret (.error e, s)

instance : Monad (Method E A ε σ) where
  pure a := fun s => .ret (.ok a, s)
  bind m f := fun s => (m s).bind (andThen f)

def throw (e : ε) : Method E A ε σ α := fun s => .ret (.error e, s)
def get : Method E A ε σ σ := fun s => .ret (.ok s, s)
def modify (f : σ → σ) : Method E A ε σ Unit := fun s => .ret (.ok (), f s)

/-- A value that is there, or the error that says why not. -/
def lift (x : Except ε α) : Method E A ε σ α := fun s => .ret (x, s)

def perform (e : E) : Method E A ε σ (A e) := fun s => .vis e (fun r => .ret (r, s))

/-- A method of another local state `τ`, called from `σ`. -/
def on (focus : σ → τ) (back : σ → τ → σ) (m : Method E A ε τ α) : Method E A ε σ (α × τ) :=
  fun s => (m (focus s)).bind fun r => .ret (r.1.map (·, r.2), back s r.2)

abbrev Env (E : Type) (A : E → Type) (ε W : Type) : Type := Handler E (fun e => Except ε (A e)) W

/-- Result, local state and environment after the method. -/
def exec (h : Env E A ε W) (m : Method E A ε σ α) (s : σ) (w : W) : Except ε α × σ × W :=
  let r := (m s).run h w
  (r.1.1, r.1.2, r.2)

/-- The effects of the method under `h`. -/
def effects (h : Env E A ε W) (m : Method E A ε σ α) (s : σ) (w : W) : List E := (m s).trace h w

/-! A method at a state, as the tree of what it performs. -/

/-- The tree of a method run from the state `s`. -/
def tree (m : Method E A ε σ α) (s : σ) : Prog E (fun e => Except ε (A e)) (Except ε α × σ) := m s

/-- One effect whose error ends the method in the state `s`. -/
def attempt (e : E) (s : σ) (k : A e → Prog E (fun e => Except ε (A e)) (Except ε α × σ)) :
    Prog E (fun e => Except ε (A e)) (Except ε α × σ) :=
  .vis e fun
    | .ok a => k a
    | .error err => .ret (.error err, s)

section
variable (s : σ)

@[simp] theorem tree_pure (a : α) : tree (pure a : Method E A ε σ α) s = .ret (.ok a, s) := rfl
@[simp] theorem tree_throw (e : ε) : tree (throw e : Method E A ε σ α) s = .ret (.error e, s) := rfl
@[simp] theorem tree_get : tree (get : Method E A ε σ σ) s = .ret (.ok s, s) := rfl
@[simp] theorem tree_modify (f : σ → σ) :
    tree (modify f : Method E A ε σ Unit) s = .ret (.ok (), f s) := rfl
@[simp] theorem tree_lift (x : Except ε α) :
    tree (lift x : Method E A ε σ α) s = .ret (x, s) := rfl
@[simp] theorem tree_ite (c : Prop) [Decidable c] (m n : Method E A ε σ α) :
    tree (if c then m else n) s = if c then tree m s else tree n s := by
  split <;> rfl

@[simp] theorem tree_perform (e : E) :
    tree (perform e : Method E A ε σ (A e)) s = attempt e s fun a => .ret (.ok a, s) := by
  unfold tree perform attempt
  congr 1
  funext r
  cases r <;> rfl

@[simp] theorem tree_bind (m : Method E A ε σ α) (f : α → Method E A ε σ β) :
    tree (m >>= f) s = (tree m s).bind (andThen f) := rfl

@[simp] theorem tree_on (focus : σ → τ) (back : σ → τ → σ) (m : Method E A ε τ α) :
    tree (on focus back m) s =
      (tree m (focus s)).bind fun r => .ret (r.1.map (·, r.2), back s r.2) := rfl

@[simp] theorem andThen_ok (f : α → Method E A ε σ β) (a : α) :
    andThen f (.ok a, s) = tree (f a) s := rfl
@[simp] theorem andThen_error (f : α → Method E A ε σ β) (e : ε) :
    andThen f (.error e, s) = .ret (.error e, s) := rfl

/-- What follows a call follows its effects. -/
@[simp] theorem attempt_bind (e : E) (k : A e → Prog E (fun e => Except ε (A e)) (Except ε α × σ))
    (f : α → Method E A ε σ β) :
    (attempt e s k).bind (andThen f) = attempt e s fun a => (k a).bind (andThen f) := by
  unfold attempt
  rw [Prog.bind_vis]
  congr 1
  funext r
  cases r <;> rfl

/-- One effect, answered. -/
theorem run_attempt (h : Env E A ε W) (e : E)
    (k : A e → Prog E (fun e => Except ε (A e)) (Except ε α × σ)) (w : W) :
    (attempt e s k).run h w =
      match h e w with
      | (.ok a, w') => (k a).run h w'
      | (.error err, w') => ((.error err, s), w') := by
  unfold attempt
  rw [Prog.run]
  rcases h e w with ⟨_ | _, w'⟩ <;> rfl

/-- And so does the return to a caller's state. -/
@[simp] theorem attempt_bind_on (e : E) (s : τ)
    (k : A e → Prog E (fun e => Except ε (A e)) (Except ε α × τ)) (back : τ → σ) :
    (attempt e s k).bind (fun r => .ret (r.1.map (·, r.2), back r.2)) =
      attempt e (back s) fun a =>
        (k a).bind fun r => .ret (r.1.map (·, r.2), back r.2) := by
  unfold attempt
  rw [Prog.bind_vis]
  congr 1
  funext r
  cases r <;> rfl

end

variable (h : Env E A ε W) (s : σ) (w : W)

/-- Running a method is running its tree. -/
theorem exec_eq_run (m : Method E A ε σ α) :
    exec h m s w =
      (((tree m s).run h w).1.1, ((tree m s).run h w).1.2, ((tree m s).run h w).2) := rfl

@[simp] theorem exec_pure (a : α) : exec h (pure a : Method E A ε σ α) s w = (.ok a, s, w) := rfl
@[simp] theorem exec_throw (e : ε) :
    exec h (throw e : Method E A ε σ α) s w = (.error e, s, w) := rfl
@[simp] theorem exec_get : exec h (get : Method E A ε σ σ) s w = (.ok s, s, w) := rfl
@[simp] theorem exec_modify (f : σ → σ) :
    exec h (modify f : Method E A ε σ Unit) s w = (.ok (), f s, w) := rfl
@[simp] theorem exec_lift (x : Except ε α) :
    exec h (lift x : Method E A ε σ α) s w = (x, s, w) := rfl
@[simp] theorem exec_perform (e : E) :
    exec h (perform e : Method E A ε σ (A e)) s w = ((h e w).1, s, (h e w).2) := rfl

@[simp] theorem exec_bind (m : Method E A ε σ α) (f : α → Method E A ε σ β) :
    exec h (m >>= f) s w =
      match exec h m s w with
      | (.ok a, s', w') => exec h (f a) s' w'
      | (.error e, s', w') => (.error e, s', w') := by
  show exec h (fun s => (m s).bind (andThen f)) s w = _
  simp only [exec, Prog.run_bind]
  rcases (m s).run h w with ⟨⟨_ | _, _⟩, _⟩ <;> rfl

@[simp] theorem exec_on (focus : σ → τ) (back : σ → τ → σ) (m : Method E A ε τ α) :
    exec h (on focus back m) s w =
      ((exec h m (focus s) w).1.map (·, (exec h m (focus s) w).2.1),
        back s (exec h m (focus s) w).2.1, (exec h m (focus s) w).2.2) := by
  simp only [exec, on, Prog.run_bind]
  rfl

@[simp] theorem exec_ite (c : Prop) [Decidable c] (m n : Method E A ε σ α) :
    exec h (if c then m else n) s w = if c then exec h m s w else exec h n s w := by
  split <;> rfl

@[simp] theorem effects_ite (c : Prop) [Decidable c] (m n : Method E A ε σ α) :
    effects h (if c then m else n) s w = if c then effects h m s w else effects h n s w := by
  split <;> rfl

@[simp] theorem effects_pure (a : α) : effects h (pure a : Method E A ε σ α) s w = [] := rfl
@[simp] theorem effects_throw (e : ε) : effects h (throw e : Method E A ε σ α) s w = [] := rfl
@[simp] theorem effects_get : effects h (get : Method E A ε σ σ) s w = [] := rfl
@[simp] theorem effects_modify (f : σ → σ) :
    effects h (modify f : Method E A ε σ Unit) s w = [] := rfl
@[simp] theorem effects_lift (x : Except ε α) :
    effects h (lift x : Method E A ε σ α) s w = [] := rfl
@[simp] theorem effects_perform (e : E) :
    effects h (perform e : Method E A ε σ (A e)) s w = [e] := rfl

@[simp] theorem effects_bind (m : Method E A ε σ α) (f : α → Method E A ε σ β) :
    effects h (m >>= f) s w =
      effects h m s w ++
        match exec h m s w with
        | (.ok a, s', w') => effects h (f a) s' w'
        | (.error _, _, _) => [] := by
  show Prog.trace h ((m s).bind (andThen f)) w = _
  simp only [Prog.trace_bind, effects, exec]
  rcases (m s).run h w with ⟨⟨_ | _, _⟩, _⟩ <;> rfl

/-- An effect of a sequence is one of the first part, or one of the second part
    after a first part that went well. -/
theorem mem_effects_bind {m : Method E A ε σ α} {f : α → Method E A ε σ β} {e : E} :
    e ∈ effects h (m >>= f) s w ↔
      e ∈ effects h m s w ∨
        ∃ a s' w', exec h m s w = (.ok a, s', w') ∧ e ∈ effects h (f a) s' w' := by
  rw [effects_bind, List.mem_append]
  rcases exec h m s w with ⟨_ | a, s', w'⟩
  · simp
  · constructor
    · exact Or.imp_right fun he => ⟨a, s', w', rfl, he⟩
    · rintro (he | ⟨_, _, _, heq, he⟩)
      · exact .inl he
      · cases heq
        exact .inr he

/-- What follows a call performs no effect of its own. -/
theorem effects_bind_silent {m : Method E A ε σ α} {f : α → Method E A ε σ β}
    (hf : ∀ a s w, effects h (f a) s w = []) : effects h (m >>= f) s w = effects h m s w := by
  rw [effects_bind]
  rcases exec h m s w with ⟨_ | a, s', w'⟩
  · exact List.append_nil _
  · simp only [hf, List.append_nil]

/-- A result computed from another leaves state and environment alone. -/
@[simp] theorem exec_bind_pure (m : Method E A ε σ α) (f : α → β) :
    exec h (m >>= fun a => pure (f a)) s w = ((exec h m s w).1.map f, (exec h m s w).2) := by
  rw [exec_bind]
  rcases exec h m s w with ⟨_ | a, s', w'⟩ <;> rfl

@[simp] theorem effects_bind_pure (m : Method E A ε σ α) (f : α → β) :
    effects h (m >>= fun a => pure (f a)) s w = effects h m s w :=
  effects_bind_silent h s w fun _ _ _ => rfl

@[simp] theorem effects_on (focus : σ → τ) (back : σ → τ → σ) (m : Method E A ε τ α) :
    effects h (on focus back m) s w = effects h m (focus s) w := by
  simp [effects, on, Prog.trace_bind, Prog.trace]

/-! What a method does to its local state, whatever the environment. -/

/-- From every state, under every environment, the method ends in a state that
    `K` relates to the one it started from. -/
def Keeps (K : σ → σ → Prop) (m : Method E A ε σ α) : Prop :=
  ∀ (W : Type) (h : Env E A ε W) (s : σ) (w : W), K s (exec h m s w).2.1

section Keeps
variable {K : σ → σ → Prop}

theorem keeps_pure (hr : ∀ s, K s s) (a : α) : Keeps K (pure a : Method E A ε σ α) :=
  fun _ _ s _ => hr s
theorem keeps_throw (hr : ∀ s, K s s) (e : ε) : Keeps K (throw e : Method E A ε σ α) :=
  fun _ _ s _ => hr s
theorem keeps_get (hr : ∀ s, K s s) : Keeps K (get : Method E A ε σ σ) := fun _ _ s _ => hr s
theorem keeps_perform (hr : ∀ s, K s s) (e : E) : Keeps K (perform e : Method E A ε σ (A e)) :=
  fun _ _ s _ => hr s
theorem keeps_modify {f : σ → σ} (h : ∀ s, K s (f s)) : Keeps K (modify f : Method E A ε σ Unit) :=
  fun _ _ s _ => h s

theorem keeps_bind (ht : ∀ s t u, K s t → K t u → K s u) {m : Method E A ε σ α}
    {f : α → Method E A ε σ β} (hm : Keeps K m) (hf : ∀ a, Keeps K (f a)) : Keeps K (m >>= f) := by
  intro W h s w
  have h1 := hm W h s w
  rw [exec_bind]
  generalize exec h m s w = r at h1 ⊢
  rcases r with ⟨_ | a, s', w'⟩
  · exact h1
  · exact ht _ _ _ h1 (hf a W h s' w')

/-- A method that reads its state first, and then may rely on what it read. -/
theorem keeps_get_bind {f : σ → Method E A ε σ β}
    (hf : ∀ (W : Type) (h : Env E A ε W) (s : σ) (w : W), K s (exec h (f s) s w).2.1) :
    Keeps K (get >>= f) := by
  intro W h s w
  rw [exec_bind, exec_get]
  exact hf W h s w

theorem keeps_ite (c : Prop) [Decidable c] {m n : Method E A ε σ α} (hm : Keeps K m)
    (hn : Keeps K n) : Keeps K (if c then m else n) := by
  split
  · exact hm
  · exact hn

end Keeps

end Method

end RubbishStore.Lib
