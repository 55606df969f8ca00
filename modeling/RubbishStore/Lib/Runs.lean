import Mathlib.Data.List.Basic

/- Runs of a deterministic system under a list of actions. `run` is the state
   after the actions; `AtEach Q` says that `Q` holds of the state each action
   meets. An invariant that every permitted action keeps holds after every
   permitted run (`run_inv`), and at every point of it (`atEach_of_inv`); one that
   an action keeps under a condition holds at every point exactly if the conditions
   do (`inv_prefixes_iff`). A property of all steps is the same property of every way
   to split the run at one action (`atEach_iff_split`). -/
namespace RubbishStore.Lib

section
variable {S A : Type} (step : S → A → S)

/-- The state after the actions, taken in order. -/
def run : S → List A → S
  | s, [] => s
  | s, a :: as => run (step s a) as

/-- `Q` holds of every action of the run and the state that action meets. -/
def AtEach (Q : S → A → Prop) : S → List A → Prop
  | _, [] => True
  | s, a :: as => Q s a ∧ AtEach Q (step s a) as

@[simp] theorem run_nil (s : S) : run step s [] = s := rfl

@[simp] theorem run_cons (s : S) (a : A) (as : List A) :
    run step s (a :: as) = run step (step s a) as := rfl

@[simp] theorem atEach_nil (Q : S → A → Prop) (s : S) : AtEach step Q s [] := trivial

@[simp] theorem atEach_cons (Q : S → A → Prop) (s : S) (a : A) (as : List A) :
    AtEach step Q s (a :: as) ↔ Q s a ∧ AtEach step Q (step s a) as := Iff.rfl

theorem run_append (s : S) (as bs : List A) :
    run step s (as ++ bs) = run step (run step s as) bs := by
  induction as generalizing s with
  | nil => rfl
  | cons a as ih => exact ih (step s a)

theorem atEach_append (Q : S → A → Prop) (s : S) (as bs : List A) :
    AtEach step Q s (as ++ bs) ↔ AtEach step Q s as ∧ AtEach step Q (run step s as) bs := by
  induction as generalizing s with
  | nil => simp
  | cons a as ih => simp [ih, and_assoc]

variable {step} {P Q : S → A → Prop} {I : S → Prop}

/-- A property of every step, read at one action of the run. -/
theorem AtEach.split {s : S} {pre post : List A} {a : A}
    (h : AtEach step Q s (pre ++ a :: post)) : Q (run step s pre) a :=
  ((atEach_append step Q s pre (a :: post)).mp h).2.1

theorem atEach_iff_split {s : S} {as : List A} :
    AtEach step Q s as ↔ ∀ pre a post, as = pre ++ a :: post → Q (run step s pre) a := by
  constructor
  · rintro h pre a post rfl
    exact h.split
  · induction as generalizing s with
    | nil => intro _; trivial
    | cons a as ih =>
      intro h
      refine ⟨h [] a as rfl, ih fun pre b post e => ?_⟩
      exact h (a :: pre) b post (by rw [e, List.cons_append])

/-- An invariant kept by every permitted action holds after a permitted run. -/
theorem run_inv {s : S} {as : List A} (h0 : I s) (hP : AtEach step P s as)
    (hstep : ∀ s a, I s → P s a → I (step s a)) : I (run step s as) := by
  induction as generalizing s with
  | nil => exact h0
  | cons a as ih => exact ih (hstep s a h0 hP.1) hP.2

/-- What an invariant gives at a permitted action holds at each of them. -/
theorem atEach_of_inv {s : S} {as : List A} (h0 : I s) (hP : AtEach step P s as)
    (hstep : ∀ s a, I s → P s a → I (step s a))
    (hQ : ∀ s a, I s → P s a → Q s a) : AtEach step Q s as := by
  induction as generalizing s with
  | nil => trivial
  | cons a as ih => exact ⟨hQ s a h0 hP.1, ih (hstep s a h0 hP.1) hP.2⟩

theorem AtEach.mono {s : S} {as : List A} (h : AtEach step P s as)
    (hPQ : ∀ s a, P s a → Q s a) : AtEach step Q s as :=
  atEach_of_inv (I := fun _ => True) trivial h (fun _ _ _ _ => trivial)
    (fun s a _ hp => hPQ s a hp)

/-- Where an action keeps the invariant exactly if `Q` holds of it, the invariant holds at every point
    of a run exactly if `Q` holds of every action. -/
theorem inv_prefixes_iff {s : S} {as : List A} (hstep : ∀ s a, I s → P s a → (I (step s a) ↔ Q s a)) (h0 : I s)
    (hP : AtEach step P s as) : (∀ pre, pre <+: as → I (run step s pre)) ↔ AtEach step Q s as := by
  induction as generalizing s with
  | nil => exact ⟨fun _ => trivial, fun _ pre hpre => by rw [List.prefix_nil.mp hpre]; exact h0⟩
  | cons a as ih =>
    have hfirst := hstep s a h0 hP.1
    constructor
    · intro hall
      have ha : I (step s a) := hall [a] (List.prefix_append [a] as)
      refine ⟨hfirst.mp ha, (ih ha hP.2).mp fun pre hpre => hall (a :: pre) ?_⟩
      exact (List.prefix_append_right_inj [a]).mpr hpre
    · intro hQ pre hpre
      cases pre with
      | nil => exact h0
      | cons a' pre =>
        obtain ⟨heq, hrest⟩ := List.cons_prefix_cons.mp hpre
        rw [heq, run_cons]
        exact (ih (hfirst.mpr hQ.1) hP.2).mpr hQ.2 pre hrest

/-- Every action is permitted. -/
theorem atEach_true {s : S} {as : List A} : AtEach step (fun _ _ => True) s as :=
  atEach_iff_split.mpr fun _ _ _ _ => trivial

end

end RubbishStore.Lib
