import RubbishStore.Lib.Cells

/- `tools.h` and `tools.c` of `basic_sort`. An `int` is an `Int`: the indices of an
   array of at most INT_MAX cells do not overflow. -/
namespace RubbishStore.BasicSort
open RubbishStore.Lib

/-- `#define TRUE 0` -/
def TRUE : Int := 0

/-- `#define FALSE 1` -/
def FALSE : Int := 1

/-- `printf("\033[2J")` -/
def clear : Code Int Unit := .print "\x1b[2J"

/-- Each cell as a line of stars. The cell is read again before every star, which
    finds the same number. -/
def showDataTree (num : Int) : Code Int Unit := do
  clear
  let _ ← Code.loop (fun i => do
    if i < num then
      let stars ← Code.peek i
      Code.print (String.ofList (List.replicate stars.toNat '*') ++ "\r\n")
      return .yield (i + 1)
    else return .done i) (num.toNat + 1) (0 : Int)

/-- Loads and stores from `l` to `r`, and the first `num` cells displayed. -/
structure Permits (R : Region) (l r num : Int) : Prop where
  load : ∀ i, l ≤ i → i ≤ r → R.Allows (.load i)
  store : ∀ i, l ≤ i → i ≤ r → R.Allows (.store i)
  peek : ∀ i, 0 ≤ i → i < num → R.Allows (.peek i)

theorem Permits.narrow {R : Region} {l r l' r' num : Int} (hR : Permits R l r num) (hl : l ≤ l')
    (hr : r' ≤ r) : Permits R l' r' num where
  load i hi hi' := hR.load i (Int.le_trans hl hi) (Int.le_trans hi' hr)
  store i hi hi' := hR.store i (Int.le_trans hl hi) (Int.le_trans hi' hr)
  peek := hR.peek

/-- The sort's own accesses lie between `l` and `r`, the display's in the first `num`
    cells. -/
def SortAccess (l r num : Int) : Access → Prop
  | .load i => l ≤ i ∧ i ≤ r
  | .store i => l ≤ i ∧ i ≤ r
  | .peek i => 0 ≤ i ∧ i < num

/-- What `Permits` asks for and no more. -/
def sortRegion (length : Nat) (l r num : Int) (hin : ∀ i, l ≤ i → i ≤ r → 0 ≤ i ∧ i < length)
    (hnum : num ≤ length) : Region where
  length := length
  Allows := SortAccess l r num
  inside a ha := by
    cases a with
    | load i => exact hin i ha.1 ha.2
    | store i => exact hin i ha.1 ha.2
    | peek i => exact ⟨ha.1, Int.lt_of_lt_of_le ha.2 hnum⟩

theorem permits_sortRegion {length : Nat} {l r num : Int}
    (hin : ∀ i, l ≤ i → i ≤ r → 0 ≤ i ∧ i < length) (hnum : num ≤ length) :
    Permits (sortRegion length l r num hin hnum) l r num where
  load _ hl hr := ⟨hl, hr⟩
  store _ hl hr := ⟨hl, hr⟩
  peek _ h0 hlt := ⟨h0, hlt⟩

/-- `show_data_tree` reads the first `num` cells and changes none. -/
theorem showDataTree_ends {R : Region} {l r num : Int} {f : Int → Int}
    {Q : Unit → (Int → Int) → Prop} (hR : Permits R l r num) (h : Q () f) :
    R.Ends f (showDataTree num) Q := by
  refine .bind (.print (.bind ?_))
  refine .loop (fun i g => 0 ≤ i ∧ g = f) (fun i => (num - i).toNat) ?_
    ⟨Int.le_refl 0, rfl⟩ (by omega)
  intro i g hinv
  obtain ⟨hi, rfl⟩ := hinv
  refine .ite (fun hlt => ?_) fun _ => .pure (.pure h)
  refine .bind (.peek (hR.peek i hi hlt) (.bind (.print (.pure ⟨⟨by omega, rfl⟩, ?_⟩))))
  show (num - (i + 1)).toNat < (num - i).toNat
  omega

/-- A sort of the first `num` cells, from what it does to the array as a function. -/
theorem sorts_first (data : List Int) (num : Fin (data.length + 1)) {c : Code Int Int}
    (hc : ∀ R : Region, Permits R 0 ((num : Int) - 1) num → R.Ends (value data) c fun b g =>
      b = TRUE ∧ Rearranged 0 ((num : Int) - 1) (value data) g ∧ AscendingOn 0 ((num : Int) - 1) g) :
    ∃ m data', c.exec { data := some data } = some (TRUE, m) ∧ m.data = some data' ∧
      Sorts 0 ((num : Int) - 1) data data' ∧
      ∀ a ∈ m.log, 0 ≤ a.index ∧ a.index < (num : Int) := by
  have hnum : (num : Int) ≤ data.length := Int.ofNat_le.mpr (Nat.le_of_lt_succ num.isLt)
  have hin : ∀ i : Int, 0 ≤ i → i ≤ (num : Int) - 1 → 0 ≤ i ∧ i < data.length := by
    intro i h0 hle
    omega
  obtain ⟨b, m, data', hexec, hdata, hlength, ⟨rfl, hf, hasc⟩, hlog⟩ :=
    (hc _ (permits_sortRegion hin hnum)).exec rfl
  refine ⟨m, data', hexec, hdata, sorts_of_rearranged hlength (fun h => ?_) hf hasc, ?_⟩
  · omega
  · intro a ha
    have hallows := hlog a ha
    cases a with
    | load i => exact ⟨hallows.1, Int.lt_of_le_sub_one hallows.2⟩
    | store i => exact ⟨hallows.1, Int.lt_of_le_sub_one hallows.2⟩
    | peek i => exact hallows

end RubbishStore.BasicSort
