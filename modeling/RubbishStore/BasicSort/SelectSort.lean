import RubbishStore.BasicSort.Tools

/- `select_sort.c`. The scan keeps the least value met and the index it was met at;
   the exchange is done through both. -/
namespace RubbishStore.BasicSort
open Function RubbishStore.Lib

/-- The inner loop, from `tmp=data[i]; index=i;` on: the least value of the cells
    from `i` on, and where it is. -/
def scanLeast (num i tmp : Int) : Code Int (Int × Int × Int) :=
  Code.loop (fun (j, tmp, index) => do
    if j < num then
      if (← Code.load j) < tmp then return .yield (j + 1, ← Code.load j, j)
      else return .yield (j + 1, tmp, index)
    else return .done (j, tmp, index)) ((num - i).toNat + 1) (i + 1, tmp, i)

def selectSort (num : Int) : Code Int Int := do
  if ← Code.isNull then return FALSE
  let _ ← Code.loop (fun i => do
    if i < num then
      let (_, tmp, index) ← scanLeast num i (← Code.load i)
      if index ≠ i then
        Code.store index (← Code.load i)
        Code.store i tmp
      showDataTree num
      return .yield (i + 1)
    else return .done i) (num.toNat + 1) (0 : Int)
  return TRUE

/-- What the scan has found when it comes to `j`. -/
structure Least (num i : Int) (f : Int → Int) (j tmp index : Int) : Prop where
  upper : j ≤ num
  from_le : i ≤ index
  lt_scan : index < j
  value : f index = tmp
  least : ∀ k, i ≤ k → k < j → tmp ≤ f k

namespace Least
variable {num i j tmp index : Int} {f : Int → Int}

theorem init (hi : i < num) (f : Int → Int) : Least num i f (i + 1) (f i) i := by
  refine ⟨by omega, Int.le_refl i, by omega, rfl, fun k hk hki => ?_⟩
  exact Int.le_of_eq (congrArg f (by omega))

theorem less (h : Least num i f j tmp index) (hlt : j < num) (hless : f j < tmp) :
    Least num i f (j + 1) (f j) j := by
  have hfrom := h.from_le
  have hscan := h.lt_scan
  refine ⟨by omega, by omega, by omega, rfl, fun k hk hkj => ?_⟩
  by_cases hkj' : k < j
  · exact Int.le_trans (Int.le_of_lt hless) (h.least k hk hkj')
  · exact Int.le_of_eq (congrArg f (by omega))

theorem keep (h : Least num i f j tmp index) (hlt : j < num) (hle : tmp ≤ f j) :
    Least num i f (j + 1) tmp index := by
  have hscan := h.lt_scan
  refine ⟨by omega, h.from_le, by omega, h.value, fun k hk hkj => ?_⟩
  by_cases hkj' : k < j
  · exact h.least k hk hkj'
  · obtain rfl : k = j := by omega
    exact hle

end Least

/-- The cells below `i` hold their final values: none behind them is smaller. -/
def Settled (num i : Int) (f : Int → Int) : Prop :=
  ∀ k m, 0 ≤ k → k < i → k ≤ m → m < num → f k ≤ f m

/-- One more is settled when the cells from `i` on are rearranged and the least of
    them comes first. -/
theorem Settled.step {num i : Int} {f g : Int → Int} (hf : Settled num i f)
    (hfg : Rearranged i (num - 1) f g) (hleast : ∀ m, i ≤ m → m < num → g i ≤ g m) :
    Settled num (i + 1) g := by
  intro k m h0 hk hkm hm
  by_cases hki : k = i
  · rw [hki]
    exact hleast m (by omega) hm
  · rw [hfg.outside (Or.inl (by omega))]
    by_cases hmi : m < i
    · rw [hfg.outside (Or.inl hmi)]
      exact hf k m h0 (by omega) hkm hm
    · refine hfg.all (P := (f k ≤ ·)) (fun n hn hn' => ?_) m (by omega) (by omega)
      exact hf k n h0 (by omega) (by omega) (by omega)

section
variable {R : Region} {num i : Int} {f : Int → Int} (hR : Permits R 0 (num - 1) num)
include hR

theorem scanLeast_ends (h0 : 0 ≤ i) (hi : i < num) :
    R.Ends f (scanLeast num i (f i)) fun r g => g = f ∧ Least num i f num r.2.1 r.2.2 := by
  refine .loop (fun s g => g = f ∧ Least num i f s.1 s.2.1 s.2.2)
    (fun s => (num - s.1).toNat) ?_ ⟨rfl, Least.init hi f⟩ (by omega)
  intro s g hinv
  obtain ⟨j, tmp, index⟩ := s
  obtain ⟨rfl, h⟩ := hinv
  refine .ite (fun hlt => ?_) fun hge => ?_
  · change j < num at hlt
    have hindex : i < j := Int.lt_of_le_of_lt h.from_le h.lt_scan
    have hload : R.Allows (.load j) := hR.load j (by omega) (by omega)
    have hlater : (num - (j + 1)).toNat < (num - j).toNat := by omega
    refine .bind (.load hload (.ite (fun hless => ?_) fun hge => ?_))
    · exact .bind (.load hload (.pure ⟨⟨rfl, h.less hlt hless⟩, hlater⟩))
    · exact .pure ⟨⟨rfl, h.keep hlt (Int.not_lt.mp hge)⟩, hlater⟩
  · obtain rfl : j = num := Int.le_antisymm h.upper (Int.not_lt.mp hge)
    exact .pure ⟨rfl, h⟩

theorem selectSort_ends (hnum : 0 ≤ num) : R.Ends f (selectSort num) fun b g =>
    b = TRUE ∧ Rearranged 0 (num - 1) f g ∧ AscendingOn 0 (num - 1) g := by
  refine .bind (.isNull (.bind ?_))
  refine .loop
    (fun i g => 0 ≤ i ∧ i ≤ num ∧ Rearranged 0 (num - 1) f g ∧ Settled num i g)
    (fun i => (num - i).toNat) ?_
    ⟨Int.le_refl 0, hnum, .refl _ _ f, fun k m h0 hk => by omega⟩ (by omega)
  intro i g hinv
  obtain ⟨h0, hi, hg, hsettled⟩ := hinv
  refine .ite (fun hlt => ?_) fun hge => ?_
  · have hlater : (num - (i + 1)).toNat < (num - i).toNat := by omega
    have hload : R.Allows (.load i) := hR.load i h0 (by omega)
    refine .bind (.load hload (.bind (.mono (scanLeast_ends hR h0 hlt) ?_)))
    intro r g' hscan
    obtain ⟨_, tmp, index⟩ := r
    obtain ⟨rfl, h⟩ := hscan
    have hfrom : i ≤ index := h.from_le
    have hscan : index < num := h.lt_scan
    have hvalue : g' index = tmp := h.value
    refine .ite (fun hne => ?_) fun heq => ?_
    · -- the least value and cell `i` change places
      have hswap : Rearranged i (num - 1) g' (update (update g' index (g' i)) i tmp) := by
        rw [← hvalue]
        exact .swap ⟨hfrom, by omega⟩ ⟨Int.le_refl i, by omega⟩ g'
      refine .bind (.load hload (.bind (.store (hR.store index (by omega) (by omega)) ?_)))
      refine .bind (.store (hR.store i h0 (by omega)) (.bind (showDataTree_ends hR ?_)))
      refine .pure ⟨⟨by omega, by omega, hg.trans (hswap.widen h0 (Int.le_refl _)), ?_⟩, hlater⟩
      refine hsettled.step hswap fun m hm hm' => ?_
      rw [update_self]
      exact hswap.all (P := (tmp ≤ ·)) (fun k hk hk' => h.least k hk (by omega)) m hm (by omega)
    · refine .bind (showDataTree_ends hR (.pure ⟨⟨by omega, by omega, hg, ?_⟩, hlater⟩))
      refine hsettled.step (.refl _ _ g') fun m hm hm' => ?_
      rw [← Decidable.not_not.mp heq, hvalue]
      exact h.least m hm hm'
  · obtain rfl : i = num := Int.le_antisymm hi (Int.not_lt.mp hge)
    refine .pure (.pure ⟨rfl, hg, fun k m h0 hkm hm => ?_⟩)
    exact hsettled k m h0 (by omega) hkm (by omega)

end

/-- The first `num` cells are sorted, the others left alone, and no others accessed. -/
theorem selectSort_sorts (data : List Int) (num : Fin (data.length + 1)) :
    ∃ m data', (selectSort num).exec { data := some data } = some (TRUE, m) ∧
      m.data = some data' ∧ Sorts 0 ((num : Int) - 1) data data' ∧
      ∀ a ∈ m.log, 0 ≤ a.index ∧ a.index < (num : Int) :=
  sorts_first data num fun _ hR => selectSort_ends hR (Int.natCast_nonneg _)

end RubbishStore.BasicSort
