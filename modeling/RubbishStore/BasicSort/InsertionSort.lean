import RubbishStore.BasicSort.Tools

/- `insertion_sort.c`. `searchPosition` finds where cell `i` belongs among the cells
   before it, and `shiftUp` moves those from there on up by one. While the cell is
   held aside the array with it put back is a rearrangement of what it was. -/
namespace RubbishStore.BasicSort
open Function RubbishStore.Lib

/-- The position `j` that cell `i` is inserted at. -/
def searchPosition (i : Int) : Code Int Int :=
  Code.loop (fun j => do
    if ← Code.andThen (j > 0) (return (← Code.load j) ≥ (← Code.load i)) then
      if (← Code.load (j - 1)) < (← Code.load i) then return .done j
      return .yield (j - 1)
    else return .done j) (i.toNat + 1) i

/-- `while(tmp_i>j) { data[tmp_i] = data[tmp_i-1]; tmp_i--; }` -/
def shiftUp (j tmpI : Int) : Code Int Int :=
  Code.loop (fun tmpI => do
    if tmpI > j then
      Code.store tmpI (← Code.load (tmpI - 1))
      return .yield (tmpI - 1)
    else return .done tmpI) ((tmpI - j).toNat + 1) tmpI

def insertionSort (num : Int) : Code Int Int := do
  if ← Code.isNull then return FALSE
  let _ ← Code.loop (fun i => do
    if i < num then
      let j ← searchPosition i
      if j < i then
        let tmp ← Code.load i
        let _ ← shiftUp j i
        Code.store j tmp
      showDataTree num
      return .yield (i + 1)
    else return .done i) (num.toNat + 1) (0 : Int)
  return TRUE

/-- Cell `i` belongs behind the cells below `j`, and before those from `j` on. -/
structure Position (i : Int) (f : Int → Int) (j : Int) : Prop where
  lower : 0 ≤ j
  upper : j ≤ i
  above : ∀ k, j ≤ k → k ≤ i → f i ≤ f k
  below : j = 0 ∨ f (j - 1) < f i

/-- What the shift has done when it comes to `t`. -/
structure Shifted (i : Int) (f : Int → Int) (j t : Int) (g : Int → Int) : Prop where
  lower : j ≤ t
  upper : t ≤ i
  rearranged : Rearranged j i f (update g t (f i))
  moved : ∀ k, t < k → k ≤ i → g k = f (k - 1)
  kept : ∀ k, k ≤ t ∨ i < k → g k = f k

section
variable {R : Region} {num i j : Int} {f g : Int → Int} (hR : Permits R 0 (num - 1) num)
include hR

theorem searchPosition_ends (h0 : 0 ≤ i) (hi : i < num) :
    R.Ends f (searchPosition i) fun j g => g = f ∧ Position i f j := by
  refine .loop
    (fun j g => g = f ∧ 0 ≤ j ∧ j ≤ i ∧ ∀ k, j ≤ k → k ≤ i → f i ≤ f k)
    (fun j => j.toNat) ?_ ⟨rfl, h0, Int.le_refl i, ?_⟩ (Nat.lt_succ_self _)
  · intro j g hinv
    obtain ⟨rfl, hj, hji, habove⟩ := hinv
    have hload : R.Allows (.load i) := hR.load i h0 (by omega)
    have hload' : R.Allows (.load j) := hR.load j hj (by omega)
    refine .bind (.andThen (fun hpos => ?_) fun hzero => ?_)
    · have hpos : 0 < j := of_decide_eq_true hpos
      refine .bind (.load hload' (.bind (.load hload (.pure (.ite (fun _ => ?_) fun hlt => ?_)))))
      · refine .bind (.load (hR.load (j - 1) (by omega) (by omega)) (.bind (.load hload ?_)))
        refine .ite (fun hlt => .pure ⟨rfl, hj, hji, habove, Or.inr hlt⟩) fun hge => ?_
        refine .pure ⟨⟨rfl, by omega, by omega, fun k hk hki => ?_⟩, ?_⟩
        · by_cases hkj : k = j - 1
          · rw [hkj]
            exact Int.not_lt.mp hge
          · exact habove k (by omega) hki
        · show (j - 1).toNat < j.toNat
          omega
      · -- the cell at `j` is never smaller than the one to insert
        exact absurd (decide_eq_true (habove j (Int.le_refl j) hji)) hlt
    · have hzero : ¬ 0 < j := of_decide_eq_false hzero
      refine .ite (fun h => absurd h Bool.false_ne_true) fun _ => .pure ⟨rfl, hj, hji, habove, ?_⟩
      exact Or.inl (by omega)
  · intro k hk hki
    rw [Int.le_antisymm hki hk]

theorem shiftUp_ends (h0 : 0 ≤ j) (hji : j ≤ i) (hi : i < num) :
    R.Ends f (shiftUp j i) fun _ g => Shifted i f j j g := by
  refine .loop (fun t g => Shifted i f j t g) (fun t => (t - j).toNat) ?_ ?_
    (Nat.lt_succ_self _)
  · intro t g h
    have hupper := h.upper
    refine .ite (fun hlt => ?_) fun hge => ?_
    · change j < t at hlt
      refine .bind (.load (hR.load (t - 1) (by omega) (by omega)) ?_)
      refine .bind (.store (hR.store t (by omega) (by omega)) (.pure ⟨⟨by omega, by omega, ?_, ?_, ?_⟩, ?_⟩))
      · exact h.rearranged.hole ⟨by omega, by omega⟩ ⟨by omega, by omega⟩
      · intro k hk hki
        by_cases hkt : k = t
        · rw [hkt, update_self]
          exact h.kept (t - 1) (by omega)
        · rw [update_of_ne hkt]
          exact h.moved k (by omega) hki
      · intro k hk
        rw [update_of_ne (by omega)]
        exact h.kept k (by omega)
      · show (t - 1 - j).toNat < (t - j).toNat
        omega
    · obtain rfl : t = j := Int.le_antisymm (Int.not_lt.mp hge) h.lower
      exact .pure h
  · refine ⟨hji, Int.le_refl i, ?_, fun k hk hki => by omega, fun k _ => rfl⟩
    rw [update_eq_self]
    exact .refl j i f

end

/-- A cell inserted into ascending cells leaves them ascending. -/
theorem Shifted.ascendingOn {i j : Int} {f g : Int → Int} (hj : Position i f j)
    (hasc : AscendingOn 0 (i - 1) f) (h : Shifted i f j j g) :
    AscendingOn 0 i (update g j (f i)) := by
  have hlower := hj.lower
  have hupper := hj.upper
  apply ascendingOn_of_neighbours
  intro k h0 hk
  by_cases hkj : k + 1 = j
  · -- the last cell before the inserted one
    rw [hkj, update_self, update_of_ne (by omega), h.kept k (by omega)]
    rcases hj.below with hzero | hbelow
    · omega
    · rw [← hkj, Int.add_sub_cancel] at hbelow
      exact Int.le_of_lt hbelow
  · rw [update_of_ne hkj]
    by_cases hkj' : k = j
    · -- the first one behind it
      rw [hkj', update_self, h.moved (j + 1) (by omega) (by omega), Int.add_sub_cancel]
      exact hj.above j (Int.le_refl j) hupper
    · rw [update_of_ne hkj']
      by_cases hlt : k < j
      · rw [h.kept k (by omega), h.kept (k + 1) (by omega)]
        exact hasc k (k + 1) h0 (by omega) (by omega)
      · rw [h.moved k (by omega) (by omega), h.moved (k + 1) (by omega) (by omega),
          Int.add_sub_cancel]
        exact hasc (k - 1) k (by omega) (by omega) (by omega)

/-- Nothing has to move. -/
theorem Position.ascendingOn {i : Int} {f : Int → Int} (hi : Position i f i)
    (hasc : AscendingOn 0 (i - 1) f) : AscendingOn 0 i f := by
  apply ascendingOn_of_neighbours
  intro k h0 hk
  by_cases hki : k + 1 = i
  · rcases hi.below with hzero | hbelow
    · omega
    · rw [← hki, Int.add_sub_cancel] at hbelow
      rw [hki] at hbelow ⊢
      exact Int.le_of_lt hbelow
  · exact hasc k (k + 1) h0 (by omega) (by omega)

theorem insertionSort_ends {R : Region} {num : Int} {f : Int → Int}
    (hR : Permits R 0 (num - 1) num) (hnum : 0 ≤ num) : R.Ends f (insertionSort num) fun b g =>
      b = TRUE ∧ Rearranged 0 (num - 1) f g ∧ AscendingOn 0 (num - 1) g := by
  refine .bind (.isNull (.bind ?_))
  refine .loop
    (fun i g => 0 ≤ i ∧ i ≤ num ∧ Rearranged 0 (num - 1) f g ∧ AscendingOn 0 (i - 1) g)
    (fun i => (num - i).toNat) ?_
    ⟨Int.le_refl 0, hnum, .refl _ _ f, fun k m h0 hkm hm => by omega⟩ (by omega)
  intro i g hinv
  obtain ⟨h0, hi, hg, hasc⟩ := hinv
  refine .ite (fun hlt => ?_) fun hge => ?_
  · have hlater : (num - (i + 1)).toNat < (num - i).toNat := by omega
    refine .bind (.mono (searchPosition_ends hR h0 hlt) ?_)
    intro j g' hfound
    obtain ⟨rfl, hj⟩ := hfound
    refine .ite (fun hji => ?_) fun hji => ?_
    · refine .bind (.load (hR.load i h0 (by omega)) (.bind (.mono (shiftUp_ends hR hj.lower hj.upper hlt) ?_)))
      intro _ g'' hshift
      refine .bind (.store (hR.store j hj.lower (by omega)) (.bind (showDataTree_ends hR ?_)))
      refine .pure ⟨⟨by omega, by omega, ?_, ?_⟩, hlater⟩
      · exact hg.trans (hshift.rearranged.widen hj.lower (by omega))
      · rw [Int.add_sub_cancel]
        exact hshift.ascendingOn hj hasc
    · obtain rfl : j = i := Int.le_antisymm hj.upper (Int.not_lt.mp hji)
      refine .bind (showDataTree_ends hR (.pure ⟨⟨by omega, by omega, hg, ?_⟩, hlater⟩))
      rw [Int.add_sub_cancel]
      exact hj.ascendingOn hasc
  · obtain rfl : i = num := Int.le_antisymm hi (Int.not_lt.mp hge)
    exact .pure (.pure ⟨rfl, hg, hasc⟩)

/-- The first `num` cells are sorted, the others left alone, and no others accessed. -/
theorem insertionSort_sorts (data : List Int) (num : Fin (data.length + 1)) :
    ∃ m data', (insertionSort num).exec { data := some data } = some (TRUE, m) ∧
      m.data = some data' ∧ Sorts 0 ((num : Int) - 1) data data' ∧
      ∀ a ∈ m.log, 0 ≤ a.index ∧ a.index < (num : Int) :=
  sorts_first data num fun _ hR => insertionSort_ends hR (Int.natCast_nonneg _)

end RubbishStore.BasicSort
