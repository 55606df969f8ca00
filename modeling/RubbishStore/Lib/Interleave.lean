import RubbishStore.Lib.Prog

/- Clients that take turns. A pool is a list of clients, each a label and what is
   left of its program, around one world. A step lets one client perform its
   next effect; a schedule is the list of the clients that step. What a step
   changes is the stepping client and the world (`step_eq`, `get_step`). -/
namespace RubbishStore.Lib

namespace Prog
variable {E : Type} {R : E → Type} {α β W : Type}

/-- The effect performed next. -/
def next : Prog E R α → Option E
  | .ret _ => none
  | .vis e _ => some e

/-- One effect, performed and answered. -/
def advance (h : Handler E R W) : Prog E R α → W → Prog E R α × W
  | .ret a, w => (.ret a, w)
  | .vis e k, w => (k (h e w).1, (h e w).2)

/-- Its result mapped. -/
def map (f : α → β) (p : Prog E R α) : Prog E R β := p.bind fun a => .ret (f a)

theorem next_map (f : α → β) (p : Prog E R α) : (p.map f).next = p.next := by
  cases p <;> rfl

theorem advance_map (f : α → β) (h : Handler E R W) (p : Prog E R α) (w : W) :
    (p.map f).advance h w = ((p.advance h w).1.map f, (p.advance h w).2) := by
  cases p <;> rfl

/-- What follows a mapped result follows the result. -/
theorem bind_map {γ : Type} (f : α → β) (p : Prog E R α) (g : β → Prog E R γ) :
    (p.map f).bind g = p.bind fun a => g (f a) := by
  unfold map
  induction p with
  | ret a => rfl
  | vis e k ih =>
    simp only [bind_vis]
    congr 1
    funext r
    exact ih r

/-- Nothing is left to perform. -/
def Ends (p : Prog E R α) : Prop := ∃ a, p = .ret a

theorem ends_iff_next {p : Prog E R α} : p.Ends ↔ p.next = none := by
  cases p with
  | ret a => exact iff_of_true ⟨a, rfl⟩ rfl
  | vis e k =>
    refine iff_of_false ?_ (Option.some_ne_none e)
    intro h
    obtain ⟨a, ha⟩ := h
    cases ha

instance : (p : Prog E R α) → Decidable p.Ends
  | .ret a => isTrue ⟨a, rfl⟩
  | .vis _ _ => isFalse fun h => by
    obtain ⟨a, ha⟩ := h
    cases ha

theorem Ends.next {p : Prog E R α} (hp : p.Ends) : p.next = none := ends_iff_next.mp hp

theorem Ends.map {p : Prog E R α} (hp : p.Ends) (f : α → β) : (p.map f).Ends := by
  obtain ⟨a, rfl⟩ := hp
  exact ⟨f a, rfl⟩

theorem Ends.advance {h : Handler E R W} {p : Prog E R α} (hp : p.Ends) (w : W) :
    p.advance h w = (p, w) := by
  obtain ⟨a, rfl⟩ := hp
  rfl

end Prog

/-- Labelled clients around one world. -/
structure Pool (L E : Type) (R : E → Type) (α W : Type) where
  clients : List (L × Prog E R α)
  world : W

namespace Pool
variable {L E : Type} {R : E → Type} {α W : Type}

/-- Client `i` performs its next effect. -/
def step (h : Handler E R W) (s : Pool L E R α W) (i : Nat) : Pool L E R α W :=
  match s.clients[i]? with
  | none => s
  | some c =>
    { clients := s.clients.set i (c.1, (c.2.advance h s.world).1)
      world := (c.2.advance h s.world).2 }

/-- No client has anything left to perform. -/
def Done (s : Pool L E R α W) : Prop := ∀ c ∈ s.clients, c.2.Ends

instance (s : Pool L E R α W) : Decidable s.Done := by
  unfold Done
  infer_instance

variable {h : Handler E R W} {s : Pool L E R α W} {i : Nat} {c : L × Prog E R α}

theorem step_eq (hc : s.clients[i]? = some c) :
    s.step h i =
      { clients := s.clients.set i (c.1, (c.2.advance h s.world).1)
        world := (c.2.advance h s.world).2 } := by
  simp only [step, hc]

theorem step_none (hc : s.clients[i]? = none) : s.step h i = s := by
  simp only [step, hc]

theorem get_step_self (hc : s.clients[i]? = some c) :
    (s.step h i).clients[i]? = some (c.1, (c.2.advance h s.world).1) := by
  have hlt : i < s.clients.length := (List.getElem?_eq_some_iff.mp hc).1
  rw [step_eq hc, List.getElem?_set_self hlt]

theorem get_step_ne {j : Nat} (hne : j ≠ i) : (s.step h i).clients[j]? = s.clients[j]? := by
  cases hc : s.clients[i]? with
  | none => rw [step_none hc]
  | some c => rw [step_eq hc, List.getElem?_set_ne (Ne.symm hne)]

theorem world_step (hc : s.clients[i]? = some c) :
    (s.step h i).world = (c.2.advance h s.world).2 := by
  rw [step_eq hc]

/-- A client after a step is the one that stepped, or as it was. -/
theorem get_step {j : Nat} {d : L × Prog E R α} (hc : s.clients[i]? = some c)
    (hd : (s.step h i).clients[j]? = some d) :
    j = i ∧ d = (c.1, (c.2.advance h s.world).1) ∨ j ≠ i ∧ s.clients[j]? = some d := by
  by_cases hj : j = i
  · subst hj
    rw [get_step_self hc] at hd
    exact .inl ⟨rfl, (Option.some.inj hd).symm⟩
  · rw [get_step_ne hj] at hd
    exact .inr ⟨hj, hd⟩

end Pool

end RubbishStore.Lib
