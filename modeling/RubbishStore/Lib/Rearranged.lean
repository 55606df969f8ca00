import Mathlib.Data.List.Nodup
import Mathlib.Data.List.Range
import Mathlib.Logic.Equiv.Basic
import Mathlib.Order.Basic

/- Arrays as functions of an index, and how a stretch of one is put in another
   order. `Rearranged l r f g` is an equivalence; exchanging two entries is a
   rearrangement, and so is a chain of moves through a hole: while one entry is held
   aside, the array with it put back into the hole stays a rearrangement of the
   first one (`Rearranged.hole`). `indices` reads a stretch off as a list: the
   lists of rearranged stretches are permutations of each other. -/
namespace RubbishStore.Lib
open Function

section
variable {α : Type} {l r l' r' i j : Int} {f g h : Int → α}

/-- Between `l` and `r` the values of `f` in some order, and those of `f` elsewhere. -/
def Rearranged (l r : Int) (f g : Int → α) : Prop :=
  ∃ σ : Equiv.Perm Int, (∀ i, i < l ∨ r < i → σ i = i) ∧ ∀ i, g i = f (σ i)

namespace Rearranged

theorem refl (l r : Int) (f : Int → α) : Rearranged l r f f :=
  ⟨Equiv.refl Int, fun _ _ => rfl, fun _ => rfl⟩

theorem trans (hf : Rearranged l r f g) (hg : Rearranged l r g h) : Rearranged l r f h := by
  obtain ⟨σ, hσ, hfg⟩ := hf
  obtain ⟨τ, hτ, hgh⟩ := hg
  refine ⟨τ.trans σ, fun i hi => ?_, fun i => ?_⟩
  · rw [Equiv.trans_apply, hτ i hi, hσ i hi]
  · rw [hgh, hfg, Equiv.trans_apply]

theorem widen (hf : Rearranged l r f g) (hl : l' ≤ l) (hr : r ≤ r') : Rearranged l' r' f g := by
  obtain ⟨σ, hσ, hfg⟩ := hf
  refine ⟨σ, fun i hi => hσ i ?_, hfg⟩
  omega

theorem outside (hf : Rearranged l r f g) (hi : i < l ∨ r < i) : g i = f i := by
  obtain ⟨σ, hσ, hfg⟩ := hf
  rw [hfg, hσ i hi]

/-- An entry between `l` and `r` comes from there. -/
theorem origin (hf : Rearranged l r f g) (hl : l ≤ i) (hr : i ≤ r) :
    ∃ j, l ≤ j ∧ j ≤ r ∧ g i = f j := by
  obtain ⟨σ, hσ, hfg⟩ := hf
  have hin : ¬ (σ i < l ∨ r < σ i) := by
    intro hout
    -- outside nothing moves, so that `i` would be outside
    have hfix : σ i = i := σ.injective (hσ _ hout)
    omega
  refine ⟨σ i, by omega, by omega, hfg i⟩

/-- A property of all entries between `l` and `r` stays one. -/
theorem all {P : α → Prop} (hf : Rearranged l r f g)
    (hP : ∀ i, l ≤ i → i ≤ r → P (f i)) : ∀ i, l ≤ i → i ≤ r → P (g i) := by
  intro i hl hr
  obtain ⟨j, hjl, hjr, heq⟩ := hf.origin hl hr
  rw [heq]
  exact hP j hjl hjr

/-- Two entries are exchanged. -/
theorem swap (hi : l ≤ i ∧ i ≤ r) (hj : l ≤ j ∧ j ≤ r) (f : Int → α) :
    Rearranged l r f (update (update f i (f j)) j (f i)) := by
  refine ⟨Equiv.swap i j, fun k hk => ?_, fun k => ?_⟩
  · apply Equiv.swap_apply_of_ne_of_ne
    · omega
    · omega
  · by_cases hkj : k = j
    · rw [hkj, update_self, Equiv.swap_apply_right]
    · rw [update_of_ne hkj]
      by_cases hki : k = i
      · rw [hki, update_self, Equiv.swap_apply_left]
      · rw [update_of_ne hki, Equiv.swap_apply_of_ne_of_ne hki hkj]

/-- The entry at `j` is moved into the hole at `i`, and the hole to `j`. -/
theorem hole {key : α} (hg : Rearranged l r f (update g i key)) (hi : l ≤ i ∧ i ≤ r)
    (hj : l ≤ j ∧ j ≤ r) : Rearranged l r f (update (update g i (g j)) j key) := by
  by_cases hij : i = j
  · rw [← hij, update_idem]
    exact hg
  · have hswap := hg.trans (swap hi hj (update g i key))
    rwa [update_self, update_of_ne (Ne.symm hij), update_idem] at hswap

end Rearranged

/-- The indices from `l` to `r`. -/
def indices (l r : Int) : List Int := (List.range (r + 1 - l).toNat).map fun k : Nat => l + (k : Int)

@[simp] theorem mem_indices : i ∈ indices l r ↔ l ≤ i ∧ i ≤ r := by
  rw [indices, List.mem_map]
  constructor
  · intro hmem
    obtain ⟨k, hk, rfl⟩ := hmem
    rw [List.mem_range] at hk
    omega
  · intro hin
    obtain ⟨hl, hr⟩ := hin
    refine ⟨(i - l).toNat, List.mem_range.mpr ?_, ?_⟩
    · omega
    · omega

theorem nodup_indices (l r : Int) : (indices l r).Nodup := by
  apply List.Nodup.map
  · intro j k hjk
    have hcast : l + (j : Int) = l + (k : Int) := hjk
    omega
  · exact List.nodup_range

theorem Rearranged.perm (hf : Rearranged l r f g) :
    ((indices l r).map g).Perm ((indices l r).map f) := by
  obtain ⟨σ, hσ, hfg⟩ := hf
  have hmap : (indices l r).map g = ((indices l r).map σ).map f := by
    rw [List.map_map]
    exact List.map_congr_left fun i _ => hfg i
  -- the permutation sends the indices to themselves
  have hperm : ((indices l r).map σ).Perm (indices l r) := by
    apply (List.perm_ext_iff_of_nodup ((nodup_indices l r).map σ.injective) (nodup_indices l r)).mpr
    intro j
    rw [List.mem_map]
    constructor
    · intro hmem
      obtain ⟨i, hi, rfl⟩ := hmem
      rw [mem_indices] at hi ⊢
      by_contra hout
      have hfix : σ i = i := σ.injective (hσ _ (by omega))
      omega
    · intro hj
      rw [mem_indices] at hj
      refine ⟨σ.symm j, ?_, σ.apply_symm_apply j⟩
      rw [mem_indices]
      by_contra hout
      have hfix := hσ (σ.symm j) (by omega)
      rw [σ.apply_symm_apply] at hfix
      omega
  rw [hmap]
  exact hperm.map f

end

section
variable {α : Type} {l r : Int} {f : Int → α}

/-- The entries between `l` and `r` ascend. -/
def AscendingOn [LE α] (l r : Int) (f : Int → α) : Prop :=
  ∀ i j, l ≤ i → i ≤ j → j ≤ r → f i ≤ f j

theorem AscendingOn.pairwise [LE α] (hf : AscendingOn l r f) :
    ((indices l r).map f).Pairwise (· ≤ ·) := by
  rw [indices, List.map_map, List.pairwise_map]
  refine List.Pairwise.imp_of_mem ?_ List.pairwise_lt_range
  intro j k _ hk hlt
  rw [List.mem_range] at hk
  show f (l + (j : Int)) ≤ f (l + (k : Int))
  apply hf
  · omega
  · omega
  · omega

/-- It is enough to compare neighbours. -/
theorem ascendingOn_of_neighbours [Preorder α] (h : ∀ i, l ≤ i → i < r → f i ≤ f (i + 1)) :
    AscendingOn l r f := by
  intro i j hl hij hr
  obtain ⟨k, rfl⟩ := Int.le.dest hij
  induction k with
  | zero => simp
  | succ k ih =>
    have hstep := h (i + k) (by omega) (by omega)
    refine le_trans (ih (by omega) (by omega)) ?_
    rwa [Int.add_assoc] at hstep

end

end RubbishStore.Lib
