import RubbishStore.BasicSort.Tools

/- `quick_sort.c`. The value of the first cell, `key`, is held aside, and its cell is a
   hole that the other values are moved through: at the head of the loop the hole is
   at `low`, everything before it is smaller than `key`, nothing behind `high` is,
   and the array with `key` put back is a rearrangement of what it was
   (`Partitioning`). A round in which neither scan moves has found `key` at both
   ends; then `high` goes down by one, so that every round shortens the stretch
   between the two. -/
namespace RubbishStore.BasicSort
open Function RubbishStore.Lib

/-- `while(low<high && data[high] > key) high--;` -/
def scanDown (key low high : Int) : Code Int Int :=
  Code.loop (fun high => do
    if ← Code.andThen (low < high) (return (← Code.load high) > key) then return .yield (high - 1)
    else return .done high) ((high - low).toNat + 1) high

/-- `while(low<high && data[low] < key) low++;` -/
def scanUp (key low high : Int) : Code Int Int :=
  Code.loop (fun low => do
    if ← Code.andThen (low < high) (return (← Code.load low) < key) then return .yield (low + 1)
    else return .done low) ((high - low).toNat + 1) low

/-- The loop over both scans; it leaves the hole where the two meet. -/
def partitionLoop (key left right : Int) : Code Int (Int × Int) :=
  Code.loop (fun (low, high) => do
    if low < high then
      let tmpLow := low
      let tmpHigh := high
      let high ← scanDown key low high
      Code.store low (← Code.load high)
      let low ← scanUp key low high
      Code.store high (← Code.load low)
      if high = tmpHigh ∧ low = tmpLow then return .yield (low, high - 1)
      else return .yield (low, high)
    else return .done (low, high)) ((right - left).toNat + 1) (left, right)

/-- Calls nested less than `fuel` deep. -/
def quickSortCalls : Nat → Int → Int → Int → Code Int Int
  | 0, _, _, _ => fun _ => none
  | fuel + 1, left, right, num => do
    if ← Code.isNull then return FALSE
    if left ≥ right then return TRUE
    let key ← Code.load left
    let (low, _) ← partitionLoop key left right
    Code.store low key
    showDataTree num
    if (← quickSortCalls fuel left (low - 1) num) = FALSE then return FALSE
    if (← quickSortCalls fuel (low + 1) right num) = FALSE then return FALSE
    return TRUE

/-- No call is nested deeper than the stretch is long. -/
def quickSort (left right num : Int) : Code Int Int :=
  quickSortCalls ((right - left).toNat + 1) left right num

/-! The two scans. -/

/-- Where `scanDown` stops. -/
structure Down (key low high : Int) (f : Int → Int) (high' : Int) : Prop where
  lower : low ≤ high'
  upper : high' ≤ high
  passed : ∀ k, high' < k → k ≤ high → key ≤ f k
  stop : high' = low ∨ f high' ≤ key

/-- Where `scanUp` stops. -/
structure Up (key low high : Int) (f : Int → Int) (low' : Int) : Prop where
  lower : low ≤ low'
  upper : low' ≤ high
  passed : ∀ k, low ≤ k → k < low' → f k < key
  stop : low' = high ∨ key ≤ f low'

section
variable {R : Region} {l r num key low high : Int} {f : Int → Int} (hR : Permits R l r num)
include hR

theorem scanDown_ends (hlow : l ≤ low) (hle : low ≤ high) (hhigh : high ≤ r) :
    R.Ends f (scanDown key low high) fun high' g => g = f ∧ Down key low high f high' := by
  refine .mono
    (.scan (fun h => low ≤ h ∧ h ≤ high ∧ ∀ k, h < k → k ≤ high → key ≤ f k)
      (fun h => (h - low).toNat) ?_ ?_ ?_ (Nat.lt_succ_self _)) ?_
  · intro h hh _
    exact hR.load h (by omega) (by omega)
  · intro h hinv hlt hgt
    obtain ⟨hlower, hupper, hpassed⟩ := hinv
    refine ⟨⟨by omega, by omega, fun k hk hk' => ?_⟩, by omega⟩
    by_cases hkh : k = h
    · rw [hkh]
      exact Int.le_of_lt hgt
    · exact hpassed k (by omega) hk'
  · exact ⟨hle, Int.le_refl high, fun k hk hk' => by omega⟩
  · intro h g hend
    obtain ⟨rfl, ⟨hlower, hupper, hpassed⟩, hstop⟩ := hend
    refine ⟨rfl, hlower, hupper, hpassed, ?_⟩
    rcases hstop with hlast | hfails
    · exact Or.inl (by omega)
    · exact Or.inr (Int.not_lt.mp hfails)

theorem scanUp_ends (hlow : l ≤ low) (hle : low ≤ high) (hhigh : high ≤ r) :
    R.Ends f (scanUp key low high) fun low' g => g = f ∧ Up key low high f low' := by
  refine .mono
    (.scan (fun h => low ≤ h ∧ h ≤ high ∧ ∀ k, low ≤ k → k < h → f k < key)
      (fun h => (high - h).toNat) ?_ ?_ ?_ (Nat.lt_succ_self _)) ?_
  · intro h hh _
    exact hR.load h (by omega) (by omega)
  · intro h hinv hlt hless
    obtain ⟨hlower, hupper, hpassed⟩ := hinv
    refine ⟨⟨by omega, by omega, fun k hk hk' => ?_⟩, by omega⟩
    by_cases hkh : k = h
    · rw [hkh]
      exact hless
    · exact hpassed k hk (by omega)
  · exact ⟨Int.le_refl low, hle, fun k hk hk' => by omega⟩
  · intro h g hend
    obtain ⟨rfl, ⟨hlower, hupper, hpassed⟩, hstop⟩ := hend
    refine ⟨rfl, hlower, hupper, hpassed, ?_⟩
    rcases hstop with hlast | hfails
    · exact Or.inl (by omega)
    · exact Or.inr (Int.not_lt.mp hfails)

end

/-! The loop over both. -/

/-- At the head of the loop. -/
structure Partitioning (key left right : Int) (f : Int → Int) (low high : Int) (g : Int → Int) :
    Prop where
  lower : left ≤ low
  middle : low ≤ high
  upper : high ≤ right
  rearranged : Rearranged left right f (update g low key)
  below : ∀ k, left ≤ k → k < low → g k < key
  above : ∀ k, high < k → k ≤ right → key ≤ g k

namespace Partitioning
variable {key left right low high low' high' : Int} {f g : Int → Int}

theorem init (hle : left ≤ right) (hkey : f left = key) :
    Partitioning key left right f left right f := by
  refine ⟨Int.le_refl left, hle, Int.le_refl right, ?_, fun k hk hk' => by omega,
    fun k hk hk' => by omega⟩
  rw [← hkey, update_eq_self]
  exact .refl left right f

/-- The two moves of a round: through the hole at `low` to `high'`, and back to `low'`. -/
theorem moves (h : Partitioning key left right f low high g) (hdown : Down key low high g high')
    (hup : Up key low high' (update g low (g high')) low') :
    Partitioning key left right f low' high'
      (update (update g low (g high')) high' (update g low (g high') low')) := by
  have hlower := h.lower
  have hupper := h.upper
  have hd := hdown.lower
  have hd' := hdown.upper
  have hu := hup.lower
  have hu' := hup.upper
  refine ⟨by omega, hu', by omega, ?_, fun k hk hk' => ?_, fun k hk hk' => ?_⟩
  · have hfirst : Rearranged left right f (update (update g low (g high')) high' key) :=
      h.rearranged.hole ⟨hlower, by omega⟩ ⟨by omega, by omega⟩
    exact hfirst.hole ⟨by omega, by omega⟩ ⟨by omega, by omega⟩
  · rw [update_of_ne (by omega)]
    by_cases hkl : k < low
    · rw [update_of_ne (by omega)]
      exact h.below k hk hkl
    · exact hup.passed k (by omega) hk'
  · rw [update_of_ne (by omega), update_of_ne (by omega)]
    by_cases hkh : k ≤ high
    · exact hdown.passed k hk hkh
    · exact h.above k (by omega) hk'

/-- Neither scan has moved: both ends hold `key`, and the upper one is left behind. -/
theorem repeated (h : Partitioning key left right f low high g) (hlt : low < high)
    (hdown : Down key low high g high) (hup : Up key low high (update g low (g high)) low) :
    Partitioning key left right f low (high - 1)
      (update (update g low (g high)) high (update g low (g high) low)) := by
  have hmoved := h.moves hdown hup
  have hupper := h.upper
  refine ⟨hmoved.lower, by omega, by omega, hmoved.rearranged, hmoved.below, fun k hk hk' => ?_⟩
  by_cases hkh : k = high
  · rw [hkh, update_self]
    rcases hup.stop with heq | hkey
    · omega
    · exact hkey
  · exact hmoved.above k (by omega) hk'

end Partitioning

theorem partitionLoop_ends {R : Region} {left right num key : Int} {f : Int → Int}
    (hR : Permits R left right num) (hle : left ≤ right) (hkey : f left = key) :
    R.Ends f (partitionLoop key left right) fun r g =>
      Partitioning key left right f r.1 r.1 g := by
  refine .loop (fun s g => Partitioning key left right f s.1 s.2 g)
    (fun s => (s.2 - s.1).toNat) ?_ (Partitioning.init hle hkey) (Nat.lt_succ_self _)
  intro s g h
  obtain ⟨low, high⟩ := s
  have hlower : left ≤ low := h.lower
  have hupper : high ≤ right := h.upper
  refine .ite (fun hlt => ?_) fun hge => ?_
  · change low < high at hlt
    refine .bind (.mono (scanDown_ends hR hlower (Int.le_of_lt hlt) hupper) ?_)
    intro high' g' hscan
    obtain ⟨rfl, hdown⟩ := hscan
    have hd := hdown.lower
    have hd' := hdown.upper
    refine .bind (.load (hR.load high' (by omega) (by omega)) ?_)
    refine .bind (.store (hR.store low hlower (by omega)) ?_)
    refine .bind (.mono (scanUp_ends hR hlower hd (by omega)) ?_)
    intro low' g'' hscan
    obtain ⟨rfl, hup⟩ := hscan
    have hu := hup.lower
    have hu' := hup.upper
    refine .bind (.load (hR.load low' (by omega) (by omega)) ?_)
    refine .bind (.store (hR.store high' (by omega) (by omega)) ?_)
    refine .ite (fun hstill => ?_) fun hmoved => ?_
    · obtain ⟨rfl, rfl⟩ := hstill
      refine .pure ⟨h.repeated hlt hdown hup, ?_⟩
      show (high' - 1 - low').toNat < (high' - low').toNat
      omega
    · refine .pure ⟨h.moves hdown hup, ?_⟩
      show (high' - low').toNat < (high - low).toNat
      omega
  · obtain rfl : high = low := Int.le_antisymm (Int.not_lt.mp hge) h.middle
    exact .pure h

/-! The recursion. -/

/-- Two sorted parts, on either side of a value between them. -/
theorem ascendingOn_of_parts {left right low : Int} {f g h : Int → Int}
    (hbelow : ∀ k, left ≤ k → k ≤ low - 1 → f k ≤ f low)
    (habove : ∀ k, low + 1 ≤ k → k ≤ right → f low ≤ f k)
    (hg : Rearranged left (low - 1) f g) (hgasc : AscendingOn left (low - 1) g)
    (hh : Rearranged (low + 1) right g h) (hhasc : AscendingOn (low + 1) right h) :
    AscendingOn left right h := by
  have hmid : h low = f low := by
    rw [hh.outside (Or.inl (by omega)), hg.outside (Or.inr (by omega))]
  have hleft : ∀ k, left ≤ k → k ≤ low - 1 → h k = g k ∧ h k ≤ f low := by
    intro k hk hk'
    have hkept : h k = g k := hh.outside (Or.inl (by omega))
    refine ⟨hkept, ?_⟩
    rw [hkept]
    exact hg.all (P := (· ≤ f low)) hbelow k hk hk'
  have hright : ∀ k, low + 1 ≤ k → k ≤ right → f low ≤ h k := by
    refine hh.all (P := (f low ≤ ·)) fun k hk hk' => ?_
    rw [hg.outside (Or.inr (by omega))]
    exact habove k hk hk'
  intro i j hi hij hj
  by_cases hjlow : j ≤ low - 1
  · rw [(hleft i hi (by omega)).1, (hleft j (by omega) hjlow).1]
    exact hgasc i j hi hij hjlow
  · by_cases hilow : low + 1 ≤ i
    · exact hhasc i j hilow hij hj
    · -- the value in the middle lies between the two
      have hle : h i ≤ f low := by
        by_cases hi' : i ≤ low - 1
        · exact (hleft i hi hi').2
        · rw [show i = low by omega, hmid]
      have hge : f low ≤ h j := by
        by_cases hj' : low + 1 ≤ j
        · exact hright j hj' hj
        · rw [show j = low by omega, hmid]
      exact Int.le_trans hle hge

theorem quickSortCalls_ends {R : Region} {num : Int} (fuel : Nat) {left right : Int}
    {f : Int → Int} (hR : Permits R left right num) (hfuel : (right - left).toNat < fuel) :
    R.Ends f (quickSortCalls fuel left right num) fun b g =>
      b = TRUE ∧ Rearranged left right f g ∧ AscendingOn left right g := by
  induction fuel generalizing left right f with
  | zero => exact absurd hfuel (Nat.not_lt_zero _)
  | succ fuel ih =>
    refine .bind (.isNull (.ite (fun hnull => absurd hnull Bool.false_ne_true) fun _ => ?_))
    refine .ite (fun hge => .pure ⟨rfl, .refl _ _ f, fun i j hi hij hj => ?_⟩) fun hlt => ?_
    · rw [show i = j by omega]
    · have hlt : left < right := Int.not_le.mp hlt
      have hne : ¬ TRUE = FALSE := by decide
      refine .bind (.load (hR.load left (Int.le_refl left) (by omega)) ?_)
      refine .bind (.mono (partitionLoop_ends hR (Int.le_of_lt hlt) rfl) ?_)
      intro s g h
      obtain ⟨low, _⟩ := s
      have hlower : left ≤ low := h.lower
      have hupper : low ≤ right := h.upper
      refine .bind (.store (hR.store low hlower hupper) (.bind (showDataTree_ends hR ?_)))
      refine .bind (.mono (ih (hR.narrow (Int.le_refl left) (by omega)) (by omega)) ?_)
      intro b g₁ hsorted
      obtain ⟨rfl, hg₁, hasc₁⟩ := hsorted
      refine .ite (fun heq => absurd heq hne) fun _ => ?_
      refine .bind (.mono (ih (hR.narrow (by omega) (Int.le_refl right)) (by omega)) ?_)
      intro b g₂ hsorted
      obtain ⟨rfl, hg₂, hasc₂⟩ := hsorted
      refine .ite (fun heq => absurd heq hne) fun _ => .pure ⟨rfl, ?_, ?_⟩
      · refine (h.rearranged.trans (hg₁.widen (Int.le_refl left) ?_)).trans (hg₂.widen ?_ ?_)
        · omega
        · omega
        · omega
      · refine ascendingOn_of_parts (fun k hk hk' => ?_) (fun k hk hk' => ?_) hg₁ hasc₁
          hg₂ hasc₂
        · rw [update_self, update_of_ne (by omega)]
          exact Int.le_of_lt (h.below k hk (by exact Int.lt_of_le_sub_one hk'))
        · rw [update_self, update_of_ne (by omega)]
          exact h.above k (by exact Int.lt_of_add_one_le hk) hk'

/-- Nothing to sort. -/
theorem quickSort_short {data : List Int} {left right num : Int} (h : left ≥ right) :
    (quickSort left right num).exec { data := some data } = some (TRUE, { data := some data }) := by
  show (if left ≥ right then (return TRUE : Code Int Int) else _) _ = _
  rw [if_pos h]
  rfl

/-- The cells from `left` to `right` are sorted, the others left alone, and the sort
    accesses no others; what it displays are the first `num` cells. -/
theorem quickSort_sorts (data : List Int) (left right num : Int)
    (hin : ∀ i, left ≤ i → i ≤ right → 0 ≤ i ∧ i < data.length)
    (hnum : left < right → num ≤ data.length) :
    ∃ m data', (quickSort left right num).exec { data := some data } = some (TRUE, m) ∧
      m.data = some data' ∧ Sorts left right data data' ∧
      ∀ a ∈ m.log, SortAccess left right num a := by
  have hends : left ≤ right → 0 ≤ left ∧ right < data.length := by
    intro hle
    exact ⟨(hin left (Int.le_refl left) hle).1, (hin right hle (Int.le_refl right)).2⟩
  by_cases hlt : left < right
  · obtain ⟨b, m, data', hexec, hdata, hlength, ⟨rfl, hf, hasc⟩, hlog⟩ :=
      (quickSortCalls_ends _ (permits_sortRegion hin (hnum hlt)) (Nat.lt_succ_self _)).exec rfl
    exact ⟨m, data', hexec, hdata, sorts_of_rearranged hlength hends hf hasc, hlog⟩
  · refine ⟨_, data, quickSort_short (Int.not_lt.mp hlt), rfl, ?_, fun a ha => absurd ha List.not_mem_nil⟩
    refine sorts_of_rearranged rfl hends (.refl _ _ _) fun i j hi hij hj => ?_
    rw [show i = j by omega]

theorem quickSort_sorts_repeated :
    ∃ m data', (quickSort 1 4 5).exec { data := some [9, 3, 3, 1, 3, 0] } = some (TRUE, m) ∧
      m.data = some data' ∧ Sorts 1 4 [9, 3, 3, 1, 3, 0] data' ∧
      ∀ a ∈ m.log, SortAccess 1 4 5 a :=
  quickSort_sorts [9, 3, 3, 1, 3, 0] 1 4 5 (fun i hi hi' => ⟨by omega, by simp; omega⟩) fun _ => by decide

/-- The display reads a cell that is not to be sorted. -/
theorem quickSort_displays_others :
    ((quickSort 0 1 3).exec { data := some [2, 1, 5] }).map (fun r => (r.1, r.2.data)) =
        some (TRUE, some [1, 2, 5]) ∧
      ¬ ∀ a ∈ ((quickSort 0 1 3).exec { data := some [2, 1, 5] }).elim [] (fun r => r.2.log),
        0 ≤ a.index ∧ a.index ≤ 1 := by
  decide +kernel

end RubbishStore.BasicSort
