import Mathlib.Logic.Function.Iterate

/- A step that either stays or goes down. Steps that are taken twice over lead further
   down, unless there is no way down left: where a walk of `m` steps ends does not
   depend on `s` steps before it exactly if `s` is none or the walk ends at the bottom
   (`iterate_add_eq_iff`). -/
namespace RubbishStore.Lib.Descent

variable {α : Type} {f : α → α} {rank : α → Nat}

theorem rank_iterate_le (h : ∀ x, f x = x ∨ rank (f x) < rank x) (s : Nat) (x : α) : rank (f^[s] x) ≤ rank x := by
  induction s generalizing x with
  | zero => exact Nat.le_refl _
  | succ s ih =>
    have hstep : rank (f x) ≤ rank x := by
      rcases h x with hx | hx
      · exact Nat.le_of_eq (congrArg rank hx)
      · exact Nat.le_of_lt hx
    calc rank (f^[s + 1] x) = rank (f^[s] (f x)) := by rw [Function.iterate_succ_apply]
      _ ≤ rank (f x) := ih (f x)
      _ ≤ rank x := hstep

theorem iterate_eq_self_iff (h : ∀ x, f x = x ∨ rank (f x) < rank x) {s : Nat} {x : α} :
    f^[s] x = x ↔ s = 0 ∨ f x = x := by
  constructor
  · intro hsame
    cases s with
    | zero => exact .inl rfl
    | succ s =>
      refine .inr ((h x).resolve_right fun hx => ?_)
      have hle := rank_iterate_le h s (f x)
      rw [← Function.iterate_succ_apply, hsame] at hle
      exact Nat.not_lt_of_le hle hx
  · intro hor
    rcases hor with rfl | hx
    · rfl
    · exact Function.iterate_fixed hx s

theorem iterate_add_eq_iff (h : ∀ x, f x = x ∨ rank (f x) < rank x) {m s : Nat} {x : α} :
    f^[m] (f^[s] x) = f^[m] x ↔ s = 0 ∨ f (f^[m] x) = f^[m] x := by
  have hcomm : f^[m] (f^[s] x) = f^[s] (f^[m] x) := by
    calc f^[m] (f^[s] x) = f^[m + s] x := (Function.iterate_add_apply f m s x).symm
      _ = f^[s + m] x := by rw [Nat.add_comm]
      _ = f^[s] (f^[m] x) := Function.iterate_add_apply f s m x
  rw [hcomm, iterate_eq_self_iff h]

end RubbishStore.Lib.Descent
