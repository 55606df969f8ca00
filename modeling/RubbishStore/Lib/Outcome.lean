import Mathlib.Data.List.Basic

/- Programs that may end. A run is an `Except X A`: it goes on with an `A`, or it
   has ended with an `X`. `Holds P Q` says what is true in either case; the rules
   follow the way a program is put together, and `Holds.iterate` is the loop
   without an end: what every round keeps holds after any number of rounds, or
   when one of them has ended the run. -/
namespace RubbishStore.Lib

section
variable {X A B : Type}

/-- `P` holds of what the run goes on with, or `Q` of what it has ended with. -/
def Holds (P : A → Prop) (Q : X → Prop) : Except X A → Prop
  | .ok a => P a
  | .error x => Q x

instance (P : A → Prop) (Q : X → Prop) [DecidablePred P] [DecidablePred Q] :
    (o : Except X A) → Decidable (Holds P Q o)
  | .ok a => inferInstanceAs (Decidable (P a))
  | .error x => inferInstanceAs (Decidable (Q x))

/-- At most `n` rounds of a loop. -/
def iterate (round : A → Except X A) : Nat → A → Except X A
  | 0, a => .ok a
  | n + 1, a => do
    iterate round n (← round a)

namespace Holds
variable {P P' : A → Prop} {Q Q' : X → Prop} {R : B → Prop} {o : Except X A}

@[simp] theorem ok_iff {a : A} : Holds P Q (.ok a) ↔ P a := Iff.rfl

@[simp] theorem error_iff {x : X} : Holds P Q (.error x : Except X A) ↔ Q x := Iff.rfl

theorem mono (h : Holds P Q o) (hP : ∀ a, P a → P' a) (hQ : ∀ x, Q x → Q' x) : Holds P' Q' o := by
  cases o with
  | ok a => exact hP a h
  | error x => exact hQ x h

theorem and (h : Holds P Q o) (h' : Holds P' Q' o) :
    Holds (fun a => P a ∧ P' a) (fun x => Q x ∧ Q' x) o := by
  cases o with
  | ok a => exact ⟨h, h'⟩
  | error x => exact ⟨h, h'⟩

theorem contradict (h : Holds P Q o) (h' : Holds (fun a => ¬ P a) (fun x => ¬ Q x) o) : False := by
  cases o with
  | ok a => exact h' h
  | error x => exact h' h

theorem bind {f : A → Except X B} (h : Holds P Q o) (hf : ∀ a, P a → Holds R Q (f a)) :
    Holds R Q (o >>= f) := by
  cases o with
  | ok a => exact hf a h
  | error x => exact h

theorem ite {c : Prop} [Decidable c] {o' : Except X A} (h : c → Holds P Q o)
    (h' : ¬ c → Holds P Q o') : Holds P Q (if c then o else o') := by
  by_cases hc : c
  · rw [if_pos hc]
    exact h hc
  · rw [if_neg hc]
    exact h' hc

theorem iterate {round : A → Except X A} (hround : ∀ a, P a → Holds P Q (round a)) {a : A}
    (ha : P a) (n : Nat) : Holds P Q (iterate round n a) := by
  induction n generalizing a with
  | zero => exact ha
  | succ n ih => exact bind (hround a ha) fun a' ha' => ih ha'

end Holds

theorem iterate_one (round : A → Except X A) (a : A) : iterate round 1 a = round a := by
  show (round a >>= fun a' => .ok a') = round a
  cases round a with
  | ok a' => rfl
  | error x => rfl

/-- The last round comes last. -/
theorem iterate_succ (round : A → Except X A) (n : Nat) (a : A) :
    iterate round (n + 1) a = iterate round n a >>= round := by
  induction n generalizing a with
  | zero => exact iterate_one round a
  | succ n ih =>
    rw [iterate, iterate]
    cases round a with
    | ok a' => exact ih a'
    | error x => rfl

end

end RubbishStore.Lib
