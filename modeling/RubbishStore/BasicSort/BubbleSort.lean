import RubbishStore.BasicSort.Tools

/- `bubble_sort.c`. A pass below `i` carries a largest of the first `i` cells to cell
   `i - 1`, so that from there on all cells are placed; a pass without an exchange
   has found its cells in order, and then all are. `bubbleSortAllPasses` is the
   function without the early exit: the array it leaves is the same. -/
namespace RubbishStore.BasicSort
open Function RubbishStore.Lib

/-- The inner loop: neighbours among the first `i` cells, and whether any were
    exchanged. -/
def bubblePass (i : Int) : Code Int (Int × Int) :=
  Code.loop (fun (j, swap) => do
    if j < i - 1 then
      if (← Code.load j) > (← Code.load (j + 1)) then
        let tmp ← Code.load j
        Code.store j (← Code.load (j + 1))
        Code.store (j + 1) tmp
        return .yield (j + 1, 1)
      else return .yield (j + 1, swap)
    else return .done (j, swap)) (i.toNat + 1) (0, 0)

def bubbleSort (num : Int) : Code Int Int := do
  if ← Code.isNull then return FALSE
  let _ ← Code.loop (fun (i, swap) => do
    if i > 0 then
      if swap = 0 then return .done (i, swap)
      let (_, swap) ← bubblePass i
      if swap = 1 then showDataTree num
      return .yield (i - 1, swap)
    else return .done (i, swap)) (num.toNat + 1) (num, (1 : Int))
  return TRUE

/-- All passes are run. -/
def bubbleSortAllPasses (num : Int) : Code Int Int := do
  if ← Code.isNull then return FALSE
  let _ ← Code.loop (fun (i, swap) => do
    if i > 0 then
      let (_, swap) ← bubblePass i
      if swap = 1 then showDataTree num
      return .yield (i - 1, swap)
    else return .done (i, swap)) (num.toNat + 1) (num, (1 : Int))
  return TRUE

/-- The cells from `i` on hold their final values: none before them is larger. -/
def Placed (num i : Int) (f : Int → Int) : Prop :=
  ∀ k m, 0 ≤ k → k ≤ m → i ≤ m → m < num → f k ≤ f m

theorem Placed.ascendingOn {num : Int} {f : Int → Int} (h : Placed num 0 f) :
    AscendingOn 0 (num - 1) f := by
  intro k m hk hkm hm
  exact h k m hk hkm (Int.le_trans hk hkm) (by omega)

/-- The first cells are rearranged and their largest comes last: one cell more is placed. -/
theorem Placed.step {num i : Int} {f g : Int → Int} (hf : Placed num i f)
    (hfg : Rearranged 0 (i - 1) f g) (hmax : ∀ k, 0 ≤ k → k ≤ i - 1 → g k ≤ g (i - 1)) :
    Placed num (i - 1) g := by
  intro k m hk hkm him hm
  rcases Int.lt_or_eq_of_le him with hlt | rfl
  · -- a cell that was placed before
    rw [hfg.outside (Or.inr hlt)]
    by_cases hki : k ≤ i - 1
    · exact hfg.all (P := (· ≤ f m)) (fun j h0 hj => hf j m h0 (by omega) (by omega) hm) k hk hki
    · rw [hfg.outside (Or.inr (by omega))]
      exact hf k m hk hkm (by omega) hm
  · exact hmax k hk hkm

/-- A pass without an exchange has found everything in its place. -/
theorem Placed.all {num i : Int} {f : Int → Int} (hf : Placed num i f)
    (hasc : AscendingOn 0 (i - 1) f) : Placed num 0 f := by
  intro k m hk hkm _ hm
  by_cases him : i ≤ m
  · exact hf k m hk hkm him hm
  · exact hasc k m hk hkm (by omega)

/-- What a pass has done when it comes to `j`. -/
structure Passed (i : Int) (f : Int → Int) (j swap : Int) (g : Int → Int) : Prop where
  lower : 0 ≤ j
  upper : j ≤ i - 1
  rearranged : Rearranged 0 (i - 1) f g
  largest : ∀ k, 0 ≤ k → k ≤ j → g k ≤ g j
  ascending : swap = 0 → AscendingOn 0 j g

namespace Passed
variable {i j swap : Int} {f g : Int → Int}

theorem init (hi : 0 < i) (f : Int → Int) : Passed i f 0 0 f := by
  have hzero : ∀ k : Int, 0 ≤ k → k ≤ 0 → k = 0 := fun k h0 hk => Int.le_antisymm hk h0
  refine ⟨Int.le_refl 0, by omega, .refl _ _ f, fun k h0 hk => ?_, fun _ k m h0 hkm hm => ?_⟩
  · rw [hzero k h0 hk]
  · rw [hzero k h0 (by omega), hzero m (by omega) hm]

theorem keep (h : Passed i f j swap g) (hlt : j < i - 1) (hle : g j ≤ g (j + 1)) :
    Passed i f (j + 1) swap g := by
  have hlargest : ∀ k, 0 ≤ k → k ≤ j + 1 → g k ≤ g (j + 1) := by
    intro k h0 hk
    rcases Int.lt_or_eq_of_le hk with hk | rfl
    · exact Int.le_trans (h.largest k h0 (by omega)) hle
    · exact Int.le_refl _
  refine ⟨by have := h.lower; omega, by omega, h.rearranged, hlargest, fun hswap => ?_⟩
  intro k m h0 hkm hm
  rcases Int.lt_or_eq_of_le hm with hm | rfl
  · exact h.ascending hswap k m h0 hkm (by omega)
  · exact hlargest k h0 hkm

theorem exchange (h : Passed i f j swap g) (hlt : j < i - 1) (hgt : g (j + 1) < g j) :
    Passed i f (j + 1) 1 (update (update g j (g (j + 1))) (j + 1) (g j)) := by
  have hj := h.lower
  refine ⟨by omega, by omega, ?_, fun k h0 hk => ?_, fun hswap => by omega⟩
  · exact h.rearranged.trans (.swap ⟨hj, by omega⟩ ⟨by omega, by omega⟩ g)
  · rw [update_self]
    rcases Int.lt_or_eq_of_le hk with hk | rfl
    · rw [update_of_ne (by omega)]
      by_cases hkj : k = j
      · rw [hkj, update_self]
        exact Int.le_of_lt hgt
      · rw [update_of_ne hkj]
        exact h.largest k h0 (by omega)
    · rw [update_self]

end Passed

theorem bubblePass_ends {R : Region} {num i : Int} {f : Int → Int} (hR : Permits R 0 (num - 1) num)
    (hi : 0 < i) (hnum : i ≤ num) :
    R.Ends f (bubblePass i) fun r g => Passed i f (i - 1) r.2 g := by
  refine .loop (fun s g => Passed i f s.1 s.2 g) (fun s => (i - s.1).toNat) ?_
    (Passed.init hi f) (by omega)
  intro s g h
  obtain ⟨j, swap⟩ := s
  have hj := h.lower
  refine .ite (fun hlt => ?_) fun hge => ?_
  · change j < i - 1 at hlt
    have hload : R.Allows (.load j) := hR.load j hj (by omega)
    have hload' : R.Allows (.load (j + 1)) := hR.load (j + 1) (by omega) (by omega)
    refine .bind (.load hload (.bind (.load hload' (.ite (fun hgt => ?_) fun hle => ?_))))
    · refine .bind (.load hload (.bind (.load hload' (.bind (.store (hR.store j hj (by omega)) ?_)))))
      refine .bind (.store (hR.store (j + 1) (by omega) (by omega)) (.pure ⟨h.exchange hlt hgt, ?_⟩))
      show (i - (j + 1)).toNat < (i - j).toNat
      omega
    · refine .pure ⟨h.keep hlt (Int.not_lt.mp hle), ?_⟩
      show (i - (j + 1)).toNat < (i - j).toNat
      omega
  · obtain rfl : j = i - 1 := by
      have := h.upper
      omega
    exact .pure h

/-- A round of either outer loop: the pass, and what is shown after it. -/
theorem bubbleRound_ends {R : Region} {num i : Int} {f : Int → Int}
    {Q : ForInStep (Int × Int) → (Int → Int) → Prop} (hR : Permits R 0 (num - 1) num) (hi : 0 < i)
    (hnum : i ≤ num) (hQ : ∀ swap g, Passed i f (i - 1) swap g → Q (.yield (i - 1, swap)) g) :
    R.Ends f (do
      let (_, swap) ← bubblePass i
      if swap = 1 then showDataTree num
      return ForInStep.yield (i - 1, swap)) Q := by
  refine .bind (.mono (bubblePass_ends hR hi hnum) ?_)
  intro r g hg
  obtain ⟨_, swap⟩ := r
  have hnext := hQ swap g hg
  exact .ite (fun _ => .bind (showDataTree_ends hR (.pure hnext))) fun _ => .pure hnext

/-- Between two rounds. -/
structure Bubbling (num : Int) (f : Int → Int) (i swap : Int) (g : Int → Int) : Prop where
  upper : i ≤ num
  rearranged : Rearranged 0 (num - 1) f g
  placed : Placed num i g
  settled : swap = 0 → Placed num 0 g

namespace Bubbling
variable {num i swap : Int} {f g g' : Int → Int}

theorem init (num : Int) (f : Int → Int) : Bubbling num f num 1 f where
  upper := Int.le_refl num
  rearranged := .refl _ _ f
  placed k m _ _ hnum hm := absurd hm (Int.not_lt.mpr hnum)
  settled h := absurd h (by decide)

theorem pass (h : Bubbling num f i swap g) {swap' : Int} (hg : Passed i g (i - 1) swap' g') :
    Bubbling num f (i - 1) swap' g' := by
  have hplaced := h.placed.step hg.rearranged hg.largest
  refine ⟨by have := h.upper; omega, ?_, hplaced, fun hswap => ?_⟩
  · exact h.rearranged.trans (hg.rearranged.widen (Int.le_refl 0) (by have := h.upper; omega))
  · apply hplaced.all
    intro k m hk hkm hm
    exact hg.ascending hswap k m hk hkm (by omega)

theorem finish (h : Bubbling num f i swap g) (hdone : i ≤ 0 ∨ swap = 0) :
    Rearranged 0 (num - 1) f g ∧ AscendingOn 0 (num - 1) g := by
  refine ⟨h.rearranged, Placed.ascendingOn ?_⟩
  rcases hdone with hi | hswap
  · intro k m hk hkm hm hlt
    exact h.placed k m hk hkm (Int.le_trans hi hm) hlt
  · exact h.settled hswap

end Bubbling

section
variable {R : Region} {num : Int} {f : Int → Int} (hR : Permits R 0 (num - 1) num)
include hR

theorem bubbleSort_ends : R.Ends f (bubbleSort num) fun b g =>
    b = TRUE ∧ Rearranged 0 (num - 1) f g ∧ AscendingOn 0 (num - 1) g := by
  refine .bind (.isNull (.bind ?_))
  refine .loop (fun s g => Bubbling num f s.1 s.2 g) (fun s => s.1.toNat) ?_
    (Bubbling.init num f) (Nat.lt_succ_self _)
  intro s g h
  obtain ⟨i, swap⟩ := s
  refine .ite (fun hi => ?_) fun hi => ?_
  · refine .ite (fun hswap => ?_) fun _ => ?_
    · exact .pure (.pure ⟨rfl, h.finish (Or.inr hswap)⟩)
    · refine bubbleRound_ends hR hi h.upper fun swap' g' hg => ⟨h.pass hg, ?_⟩
      show (i - 1).toNat < i.toNat
      omega
  · exact .pure (.pure ⟨rfl, h.finish (Or.inl (Int.not_lt.mp hi))⟩)

theorem bubbleSortAllPasses_ends : R.Ends f (bubbleSortAllPasses num) fun b g =>
    b = TRUE ∧ Rearranged 0 (num - 1) f g ∧ AscendingOn 0 (num - 1) g := by
  refine .bind (.isNull (.bind ?_))
  refine .loop (fun s g => Bubbling num f s.1 s.2 g) (fun s => s.1.toNat) ?_
    (Bubbling.init num f) (Nat.lt_succ_self _)
  intro s g h
  obtain ⟨i, swap⟩ := s
  refine .ite (fun hi => ?_) fun hi => ?_
  · refine bubbleRound_ends hR hi h.upper fun swap' g' hg => ⟨h.pass hg, ?_⟩
    show (i - 1).toNat < i.toNat
    omega
  · exact .pure (.pure ⟨rfl, h.finish (Or.inl (Int.not_lt.mp hi))⟩)

end

/-- The first `num` cells are sorted and the others left alone, and with all passes
    run the array would be the same. -/
theorem bubbleSort_sorts (data : List Int) (num : Fin (data.length + 1)) :
    ∃ m m' data', (bubbleSort num).exec { data := some data } = some (TRUE, m) ∧
      m.data = some data' ∧ Sorts 0 ((num : Int) - 1) data data' ∧
      (∀ a ∈ m.log, 0 ≤ a.index ∧ a.index < (num : Int)) ∧
      (bubbleSortAllPasses num).exec { data := some data } = some (TRUE, m') ∧
      m'.data = some data' := by
  obtain ⟨m, data₁, hexec, hdata, hsorts, hlog⟩ :=
    sorts_first data num fun R hR => bubbleSort_ends hR
  obtain ⟨m', data₂, hexec', hdata', hsorts', -⟩ :=
    sorts_first data num fun R hR => bubbleSortAllPasses_ends hR
  obtain rfl := hsorts.unique (Int.le_refl 0) hsorts'
  exact ⟨m, m', data₁, hexec, hdata, hsorts, hlog, hexec', hdata'⟩

end RubbishStore.BasicSort
