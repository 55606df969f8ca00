import Mathlib.Computability.StateTransition

/- Machines that take one step after the other until there is none left. Mathlib's
   `eval` is where a run comes to an end, if it does; here is how to tell whether it
   does. A run that has come some way ends where it ends from there (`mem_eval_of_reaches`),
   and one that always has a next step never ends (`not_ends_of_steps`). -/
namespace RubbishStore.Lib.Halting
open StateTransition

variable {σ : Type} {f : σ → Option σ} {a b : σ}

/-- The run from a state comes to an end. -/
def Ends (f : σ → Option σ) (a : σ) : Prop := ∃ b, b ∈ eval f a

theorem reaches_one (h : f a = some b) : Reaches f a b := Relation.ReflTransGen.single h

theorem reaches_head {c : σ} (h : f a = some b) (hb : Reaches f b c) : Reaches f a c := Relation.ReflTransGen.head h hb

theorem mem_eval_of_reaches {c : σ} (h : Reaches f a b) (hc : c ∈ eval f b) : c ∈ eval f a := by
  rw [reaches_eval h]
  exact hc

theorem inv_reaches {I : σ → Prop} (hstep : ∀ a b, I a → f a = some b → I b) (ha : I a) (h : Reaches f a b) : I b := by
  induction h with
  | refl => exact ha
  | tail _ hlast ih => exact hstep _ _ ih hlast

/-- An invariant under which there always is a next step. -/
theorem not_ends_of_steps {I : σ → Prop} (hstep : ∀ a, I a → ∃ b, f a = some b ∧ I b) (ha : I a) : ¬ Ends f a := by
  rintro ⟨b, hb⟩
  obtain ⟨hreaches, hlast⟩ := mem_eval.mp hb
  have hkeeps : ∀ a b, I a → f a = some b → I b := by
    intro a b hI hf
    obtain ⟨c, hc, hIc⟩ := hstep a hI
    rw [hf] at hc
    injection hc with hc
    exact hc ▸ hIc
  obtain ⟨c, hc, -⟩ := hstep b (inv_reaches hkeeps ha hreaches)
  rw [hlast] at hc
  cases hc

end RubbishStore.Lib.Halting
