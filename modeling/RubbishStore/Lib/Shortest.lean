import Mathlib.Data.List.Basic
import Mathlib.Data.List.Infix

/- The shortest prefix of a list that weighs enough, for entries of given weights: what a
   loop keeps that takes entry after entry as long as there is one and the sum of the
   weights has not reached a limit. It is all of the list when the whole list weighs too
   little. -/
namespace RubbishStore.Lib.Shortest

variable {α : Type} (f : α → Nat)

def weight : List α → Nat
  | [] => 0
  | a :: l => f a + weight l

/-- Take entries as long as `n` is not reached. -/
def shortest : Nat → List α → List α
  | _, [] => []
  | n, a :: l => if n = 0 then [] else a :: shortest (n - f a) l

@[simp]
theorem weight_nil : weight f [] = 0 := rfl

@[simp]
theorem weight_cons (a : α) (l : List α) : weight f (a :: l) = f a + weight f l := rfl

@[simp]
theorem weight_append (l m : List α) : weight f (l ++ m) = weight f l + weight f m := by
  induction l with
  | nil => exact (Nat.zero_add _).symm
  | cons a l ih => rw [List.cons_append, weight_cons, ih, weight_cons, Nat.add_assoc]

theorem shortest_zero (l : List α) : shortest f 0 l = [] := by
  cases l with
  | nil => rfl
  | cons a l => rw [shortest, if_pos rfl]

theorem shortest_cons {n : Nat} (hn : n ≠ 0) (a : α) (l : List α) :
    shortest f n (a :: l) = a :: shortest f (n - f a) l := by
  rw [shortest, if_neg hn]

variable {f} {n : Nat} {l p : List α}

theorem weight_le_of_front (h : p <+: l) : weight f p ≤ weight f l := by
  obtain ⟨t, rfl⟩ := h
  rw [weight_append]
  exact Nat.le_add_right _ _

theorem shortest_front (f : α → Nat) (n : Nat) (l : List α) : shortest f n l <+: l := by
  induction l generalizing n with
  | nil => exact List.prefix_refl []
  | cons a l ih =>
    by_cases hn : n = 0
    · rw [hn, shortest_zero]
      exact List.nil_prefix
    · rw [shortest_cons f hn]
      exact List.cons_prefix_cons.mpr ⟨rfl, ih _⟩

/-- A list that weighs too little is taken as a whole. -/
theorem shortest_eq_self (h : weight f l < n) : shortest f n l = l := by
  induction l generalizing n with
  | nil => rfl
  | cons a l ih =>
    rw [weight_cons] at h
    rw [shortest_cons f (by omega), ih (by omega)]

/-- What is taken weighs enough if the list does. -/
theorem le_weight_shortest_iff : n ≤ weight f (shortest f n l) ↔ n ≤ weight f l := by
  constructor
  · intro h
    exact Nat.le_trans h (weight_le_of_front (shortest_front f n l))
  · intro h
    induction l generalizing n with
    | nil => exact h
    | cons a l ih =>
      by_cases hn : n = 0
      · rw [hn]
        exact Nat.zero_le _
      · rw [weight_cons] at h
        have := ih (n := n - f a) (by omega)
        rw [shortest_cons f hn, weight_cons]
        omega

/-- It is the shortest: every prefix that weighs enough begins with it. -/
theorem shortest_least (hp : p <+: l) (h : n ≤ weight f p) : shortest f n l <+: p := by
  induction l generalizing n p with
  | nil => exact List.nil_prefix
  | cons a l ih =>
    by_cases hn : n = 0
    · rw [hn, shortest_zero]
      exact List.nil_prefix
    · cases p with
      | nil => exact absurd (Nat.le_zero.mp h) hn
      | cons b p =>
        obtain ⟨rfl, htail⟩ := List.cons_prefix_cons.mp hp
        rw [weight_cons] at h
        rw [shortest_cons f hn]
        exact List.cons_prefix_cons.mpr ⟨rfl, ih htail (by omega)⟩

/-- So a shorter prefix does not weigh enough. -/
theorem weight_lt_of_proper (hp : p <+: shortest f n l) (hne : p ≠ shortest f n l) : weight f p < n := by
  by_contra hge
  have hback := shortest_least (hp.trans (shortest_front f n l)) (Nat.not_lt.mp hge)
  exact hne (hp.eq_of_length (Nat.le_antisymm hp.length_le hback.length_le))

/-- What is taken exceeds the limit by less than the last entry weighs. -/
theorem weight_shortest_lt {m : Nat} (hm : ∀ a ∈ l, f a ≤ m) (hn : 0 < n) :
    weight f (shortest f n l) < n + m := by
  induction l generalizing n with
  | nil => exact Nat.lt_of_lt_of_le hn (Nat.le_add_right n m)
  | cons a l ih =>
    have ha := hm a List.mem_cons_self
    rw [shortest_cons f (Nat.ne_of_gt hn), weight_cons]
    by_cases hreach : n - f a = 0
    · rw [hreach, shortest_zero, weight_nil]
      omega
    · have := ih (fun b hb => hm b (List.mem_cons_of_mem a hb)) (Nat.pos_of_ne_zero hreach)
      omega

end RubbishStore.Lib.Shortest
