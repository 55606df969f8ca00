import Mathlib.Data.Nat.Log
import RubbishStore.Lib.Cells

/- `binarySearch.c`. The search goes on in `[start, end)` with the midpoint as the
   new lower or upper bound; the midpoint is an `int` that passes through a `float`.
   The statements meant to write the answer are comparisons (`*position == start;`),
   so that `*position` holds the last midpoint whether the key was found or not. A
   call that goes on with another one returns nothing. -/
namespace RubbishStore.Algorithm
open RubbishStore.Lib

/-- A natural number as a `float`: 24 significant bits, ties to even. -/
def toFloat (n : Nat) : Nat :=
  if n < 16777216 then n
  else
    let ulp := 1 <<< (n.log2 - 23)
    let q := n / ulp
    let r := n % ulp
    if 2 * r < ulp ∨ 2 * r = ulp ∧ q % 2 = 0 then q * ulp else (q + 1) * ulp

/-- `(int)tmp_position`, where `float tmp_position` was given an `int`. -/
def throughFloat (x : Int) : Int := if x < 0 then -toFloat (-x).toNat else toFloat x.toNat

/-- What is returned, if anything, and what `*position` holds afterwards; for calls
    nested less than `fuel` deep. -/
def binarySearchCalls : Nat → Int → Int → Int → Code Int (Option Int × Int)
  | 0, _, _, _ => fun _ => none
  | fuel + 1, search, start, stop => do
    let tmpPosition := throughFloat ((start + stop).tdiv 2)
    let position := tmpPosition
    if stop - start = 1 then
      if (← Code.load start) = search then
        -- `*position == start;`
        return (some 1, position)
      else if (← Code.load start) = stop then
        -- `*position == end;`
        return (some 1, position)
      else
        -- `*position == -1;`
        return (some 1, position)
    else if (← Code.load position) = search then return (some 1, position)
    else if (← Code.load position) > search then
      let (_, position) ← binarySearchCalls fuel search start position
      return (none, position)
    else
      let (_, position) ← binarySearchCalls fuel search position stop
      return (none, position)

/-- No call is nested deeper than the interval is wide. -/
def binarySearch (search start stop : Int) : Code Int (Option Int × Int) :=
  binarySearchCalls ((stop - start).toNat + 1) search start stop

theorem toFloat_eq {n : Nat} (h : n ≤ 16777216) : toFloat n = n := by
  rcases Nat.lt_or_eq_of_le h with hlt | rfl
  · exact if_pos hlt
  · decide

theorem throughFloat_eq {x : Int} (h0 : 0 ≤ x) (h : x ≤ 16777216) : throughFloat x = x := by
  rw [throughFloat, if_neg (by omega), toFloat_eq (by omega)]
  omega

/-- The midpoint of an interval in an array that is not too long. -/
theorem midpoint_eq {start stop : Int} (h0 : 0 ≤ start) (hlt : start < stop)
    (hstop : stop ≤ 16777216) :
    throughFloat ((start + stop).tdiv 2) = (start + stop) / 2 := by
  have hdiv : (start + stop).tdiv 2 = (start + stop) / 2 :=
    Int.tdiv_eq_ediv_of_nonneg (by omega)
  rw [hdiv]
  apply throughFloat_eq
  · omega
  · omega

/-- Loads inside an array. -/
def loads (length : Nat) : Region where
  length := length
  Allows
    | .load i => 0 ≤ i ∧ i < length
    | _ => False
  inside a ha := by
    cases a with
    | load i => exact ha
    | store i => exact absurd ha id
    | peek i => exact absurd ha id

/-- An interval of ascending cells: the search ends in it, and on the key if that is
    there. -/
theorem binarySearchCalls_ends {length : Nat} (fuel : Nat) {f : Int → Int} {search start stop : Int}
    (h0 : 0 ≤ start) (hlt : start < stop) (hstop : stop ≤ length) (hlength : length ≤ 16777216)
    (hasc : AscendingOn start (stop - 1) f) (hfuel : (stop - start).toNat < fuel) :
    (loads length).Ends f (binarySearchCalls fuel search start stop) fun r g =>
      g = f ∧ (start ≤ r.2 ∧ r.2 < stop) ∧
        ((∃ k, start ≤ k ∧ k < stop ∧ f k = search) → f r.2 = search) := by
  induction fuel generalizing start stop with
  | zero => exact absurd hfuel (Nat.not_lt_zero _)
  | succ fuel ih =>
    have hmid := midpoint_eq h0 hlt (by omega)
    have hload : ∀ i, start ≤ i → i < stop → (loads length).Allows (.load i) := by
      intro i hi hi'
      exact ⟨by omega, by omega⟩
    rw [binarySearchCalls, hmid]
    have hbounds : 2 * ((start + stop) / 2) ≤ start + stop ∧
        start + stop < 2 * ((start + stop) / 2) + 2 := by omega
    generalize (start + stop) / 2 = mid at hbounds ⊢
    refine .ite (fun hone => ?_) fun hwide => ?_
    · -- one cell is left, and the midpoint is its index
      obtain rfl : mid = start := by omega
      have hloadStart := hload mid (by omega) (by omega)
      have hfound : (∃ k, mid ≤ k ∧ k < stop ∧ f k = search) → f mid = search := by
        intro hkey
        obtain ⟨k, hk, hk', heq⟩ := hkey
        rwa [show k = mid by omega] at heq
      have hdone : f = f ∧ (mid ≤ mid ∧ mid < stop) ∧
          ((∃ k, mid ≤ k ∧ k < stop ∧ f k = search) → f mid = search) :=
        ⟨rfl, ⟨by omega, by omega⟩, hfound⟩
      refine .bind (.load hloadStart (.ite (fun _ => .pure hdone) fun _ => ?_))
      exact .bind (.load hloadStart (.ite (fun _ => .pure hdone) fun _ => .pure hdone))
    · have hloadMid := hload mid (by omega) (by omega)
      refine .bind (.load hloadMid (.ite (fun heq => ?_) fun hne => ?_))
      · exact .pure ⟨rfl, ⟨by omega, by omega⟩, fun _ => heq⟩
      · refine .bind (.load hloadMid (.ite (fun hgt => ?_) fun hle => ?_))
        · -- the key can only be below the midpoint
          have hleft : AscendingOn start (mid - 1) f :=
            fun i j hi hij hj => hasc i j hi hij (by omega)
          refine .bind (.mono (ih h0 (by omega) (by omega) hleft (by omega)) ?_)
          intro r g hpart
          obtain ⟨_, position⟩ := r
          obtain ⟨rfl, ⟨hpos, hpos'⟩, hfound⟩ := hpart
          refine .pure ⟨rfl, ⟨hpos, Int.lt_trans hpos' (by omega)⟩, ?_⟩
          intro hkey
          obtain ⟨k, hk, hk', heq⟩ := hkey
          refine hfound ⟨k, hk, ?_, heq⟩
          by_contra hge
          have hmono := hasc mid k (by omega) (by omega) (by omega)
          omega
        · have hright : AscendingOn mid (stop - 1) f :=
            fun i j hi hij hj => hasc i j (by omega) hij hj
          refine .bind (.mono (ih (by omega) (by omega) hstop hright (by omega)) ?_)
          intro r g hpart
          obtain ⟨_, position⟩ := r
          obtain ⟨rfl, ⟨hpos, hpos'⟩, hfound⟩ := hpart
          refine .pure ⟨rfl, ⟨Int.le_trans (by omega) hpos, hpos'⟩, ?_⟩
          intro hkey
          obtain ⟨k, hk, hk', heq⟩ := hkey
          refine hfound ⟨k, ?_, hk', heq⟩
          by_contra hlt'
          have hmono := hasc k mid hk (by omega) (by omega)
          omega

section
variable (list : List Int) (search : Int)

/-- The search in a whole array: where it ends, and that it ends on the key. -/
theorem binarySearch_ends (hasc : list.Pairwise (· ≤ ·)) (hne : list ≠ [])
    (hlength : list.length ≤ 16777216) :
    ∃ returned position m, (binarySearch search 0 list.length).exec { data := some list } =
        some ((returned, position), m) ∧
      m.data = some list ∧ (0 ≤ position ∧ position < list.length) ∧
      (search ∈ list → cell list position = some search) ∧
      ∀ a ∈ m.log, 0 ≤ a.index ∧ a.index < list.length := by
  have hpos : 0 < list.length := List.length_pos_iff.mpr hne
  obtain ⟨⟨returned, position⟩, m, data', hexec, hdata, hlength', ⟨hvalue, hin, hfound⟩, hlog⟩ :=
    (binarySearchCalls_ends _ (Int.le_refl 0) (Int.natCast_pos.mpr hpos) (Int.le_refl _) hlength
      (ascendingOn_value hasc) (Nat.lt_succ_self _)).exec rfl
  have hsame : data' = list := by
    apply List.ext_getElem hlength'
    intro k hk hk'
    have heq := congrFun hvalue (k : Int)
    rwa [value_eq_getElem (Int.natCast_nonneg k) hk, value_eq_getElem (Int.natCast_nonneg k) hk'] at heq
  refine ⟨returned, position, m, hexec, hsame ▸ hdata, hin, fun hmem => ?_, fun a ha => ?_⟩
  · obtain ⟨k, hk, hkey⟩ := List.getElem_of_mem hmem
    rw [cell_eq_value hin.1 hin.2, hfound ⟨k, Int.natCast_nonneg k, by exact Int.ofNat_lt.mpr hk, ?_⟩]
    rw [value_eq_getElem (Int.natCast_nonneg k) hk]
    exact hkey
  · have hallows := hlog a ha
    cases a with
    | load i => exact hallows
    | store i => exact absurd hallows id
    | peek i => exact absurd hallows id

/-- A key that occurs is found. -/
theorem binarySearch_hit (hasc : list.Pairwise (· ≤ ·)) (hlength : list.length ≤ 16777216)
    (hmem : search ∈ list) :
    ∃ returned position m, (binarySearch search 0 list.length).exec { data := some list } =
        some ((returned, position), m) ∧
      cell list position = some search ∧ m.data = some list ∧
      ∀ a ∈ m.log, 0 ≤ a.index ∧ a.index < list.length := by
  obtain ⟨returned, position, m, hexec, hdata, -, hfound, hlog⟩ :=
    binarySearch_ends list search hasc (List.ne_nil_of_mem hmem) hlength
  exact ⟨returned, position, m, hexec, hfound hmem, hdata, hlog⟩

/-- Whatever the key, `*position` is left at an index of the array, and so never at -1. -/
theorem binarySearch_unmarked (hasc : list.Pairwise (· ≤ ·)) (hne : list ≠ [])
    (hlength : list.length ≤ 16777216) :
    ∃ returned position m, (binarySearch search 0 list.length).exec { data := some list } =
        some ((returned, position), m) ∧
      (0 ≤ position ∧ position < list.length) ∧ position ≠ -1 := by
  obtain ⟨returned, position, m, hexec, -, hin, -, -⟩ :=
    binarySearch_ends list search hasc hne hlength
  exact ⟨returned, position, m, hexec, hin, by omega⟩

end

theorem binarySearch_hit_repeated :
    ∃ returned position m, (binarySearch 2 0 4).exec { data := some [1, 2, 2, 5] } =
        some ((returned, position), m) ∧
      cell [(1 : Int), 2, 2, 5] position = some 2 ∧ m.data = some [1, 2, 2, 5] ∧
      ∀ a ∈ m.log, 0 ≤ a.index ∧ a.index < 4 :=
  binarySearch_hit [1, 2, 2, 5] 2 (by decide) (by decide) (by decide)

theorem binarySearch_unmarked_between :
    ∃ returned position m, (binarySearch 2 0 2).exec { data := some [1, 3] } =
        some ((returned, position), m) ∧
      (0 ≤ position ∧ position < 2) ∧ position ≠ -1 :=
  binarySearch_unmarked [1, 3] 2 (by decide) (by decide) (by decide)

/-- The key 0 is not in the array, and index 0 is reported. -/
theorem binarySearch_miss_reported :
    (0 : Int) ∉ [(1 : Int)] ∧
      ((binarySearch 0 0 1).exec { data := some [1] }).map (fun r => r.1) = some (some 1, 0) ∧
      ((binarySearch 0 0 1).exec { data := some [1] }).map (fun r => r.1.2) ≠ some (-1) := by
  decide

end RubbishStore.Algorithm
