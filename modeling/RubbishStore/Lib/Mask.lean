import Mathlib.Data.List.Basic

/- Spans of a list blotted out with one element, one after the other. In the end an
   element is blotted out exactly when a span covers it, whatever the order and the
   overlaps (`getElem?_blot`). -/
namespace RubbishStore.Lib.Mask

variable {α : Type}

/-- `count` elements from position `i` on replaced by others. -/
def splice (s : List α) (i count : Nat) (t : List α) : List α := s.take i ++ t ++ s.drop (i + count)

/-- A span is a position and a length. -/
def Covers (span : Nat × Nat) (k : Nat) : Prop := span.1 ≤ k ∧ k < span.1 + span.2

instance (span : Nat × Nat) (k : Nat) : Decidable (Covers span k) :=
  inferInstanceAs (Decidable (_ ∧ _))

def blotOne (rep : α) (s : List α) (span : Nat × Nat) : List α :=
  splice s span.1 span.2 (List.replicate span.2 rep)

def blot (rep : α) (s : List α) (spans : List (Nat × Nat)) : List α := spans.foldl (blotOne rep) s

theorem length_blotOne {rep : α} {s : List α} {span : Nat × Nat} (h : span.1 + span.2 ≤ s.length) :
    (blotOne rep s span).length = s.length := by
  simp only [blotOne, splice, List.length_append, List.length_take, List.length_replicate,
    List.length_drop]
  omega

theorem getElem?_blotOne {rep : α} {s : List α} {span : Nat × Nat} (h : span.1 + span.2 ≤ s.length)
    (k : Nat) : (blotOne rep s span)[k]? = if Covers span k then some rep else s[k]? := by
  have htake : (s.take span.1).length = span.1 := by
    rw [List.length_take]
    omega
  rw [blotOne, splice, List.append_assoc]
  by_cases hbefore : k < span.1
  · rw [List.getElem?_append_left (by omega), List.getElem?_take_of_lt hbefore, if_neg]
    exact fun hcovers => absurd hcovers.1 (by omega)
  · rw [List.getElem?_append_right (by omega), htake]
    by_cases hinside : k < span.1 + span.2
    · rw [List.getElem?_append_left (by rw [List.length_replicate]; omega), List.getElem?_replicate,
        if_pos (by omega), if_pos ⟨by omega, hinside⟩]
    · rw [List.getElem?_append_right (by rw [List.length_replicate]; omega), List.length_replicate,
        List.getElem?_drop, if_neg fun hcovers => hinside hcovers.2]
      congr 1
      omega

theorem length_blot {rep : α} {s : List α} {spans : List (Nat × Nat)}
    (h : ∀ span ∈ spans, span.1 + span.2 ≤ s.length) : (blot rep s spans).length = s.length := by
  induction spans generalizing s with
  | nil => rfl
  | cons span spans ih =>
    obtain ⟨hspan, hspans⟩ := List.forall_mem_cons.mp h
    have hlength := @length_blotOne _ rep _ _ hspan
    rw [← hlength] at hspans ⊢
    exact ih hspans

theorem getElem?_blot {rep : α} {s : List α} {spans : List (Nat × Nat)}
    (h : ∀ span ∈ spans, span.1 + span.2 ≤ s.length) (k : Nat) :
    (blot rep s spans)[k]? = if ∃ span ∈ spans, Covers span k then some rep else s[k]? := by
  induction spans generalizing s with
  | nil => simp [blot]
  | cons span spans ih =>
    obtain ⟨hspan, hspans⟩ := List.forall_mem_cons.mp h
    have hlength := @length_blotOne _ rep _ _ hspan
    rw [← hlength] at hspans
    have hrest := ih hspans
    rw [getElem?_blotOne hspan] at hrest
    show (blot rep (blotOne rep s span) spans)[k]? = _
    simp only [hrest, List.exists_mem_cons_iff]
    by_cases hcovers : Covers span k
    · simp only [hcovers, true_or, if_true, ite_self]
    · simp only [hcovers, false_or, if_false]

end RubbishStore.Lib.Mask
