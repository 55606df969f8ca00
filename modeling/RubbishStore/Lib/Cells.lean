import Mathlib.Data.List.Sort
import RubbishStore.Lib.Rearranged

/- Code over one array in memory. A pointer is NULL or leads to the array's cells;
   what goes through NULL or outside the array is undefined, and so is a loop that
   uses up its fuel: `none`. Every access is logged with its index, those made
   only to display a cell apart from the others.
   `Region.Ends R f c Q` says that from the cells `f` the code `c` comes to its
   end, by accesses that `R` allows only, with `Q` of its result and of the cells
   then. The rules below follow the way code is put together; `Ends.loop` is the
   one for loops, with an invariant and a variant. -/
namespace RubbishStore.Lib
open Function

inductive Access where
  | load (i : Int)
  | store (i : Int)
  | peek (i : Int)
  deriving DecidableEq, Repr

def Access.index : Access → Int
  | .load i => i
  | .store i => i
  | .peek i => i

/-- What the pointer leads to, the accesses so far, and the text printed so far. -/
structure Mem (α : Type) where
  data : Option (List α)
  log : List Access := []
  out : String := ""
  deriving DecidableEq, Repr

def Code (α β : Type) : Type := Mem α → Option (β × Mem α)

/-- The cell at an index of the array. -/
def cell {α : Type} (data : List α) (i : Int) : Option α := if 0 ≤ i then data[i.toNat]? else none

namespace Code
variable {α β γ σ : Type}

instance : Monad (Code α) where
  pure b := fun m => some (b, m)
  bind c k := fun m => (c m).bind fun r => k r.1 r.2

/-- The result and the memory after it. -/
def exec (c : Code α β) (m : Mem α) : Option (β × Mem α) := c m

def isNull : Code α Bool := fun m => some (m.data.isNone, m)

def load (i : Int) : Code α α := fun m => do
  let v ← cell (← m.data) i
  return (v, { m with log := m.log ++ [.load i] })

/-- A load that only serves to display the cell. -/
def peek (i : Int) : Code α α := fun m => do
  let v ← cell (← m.data) i
  return (v, { m with log := m.log ++ [.peek i] })

def store (i : Int) (v : α) : Code α Unit := fun m => do
  let data ← m.data
  if 0 ≤ i ∧ i < data.length then
    some ((), { m with data := some (data.set i.toNat v), log := m.log ++ [.store i] })
  else none

def print (text : String) : Code α Unit := fun m => some ((), { m with out := m.out ++ text })

/-- Rounds of a loop from a state on, for less than `fuel` rounds. A round goes on
    with another state or leaves the loop. -/
def loop (body : σ → Code α (ForInStep σ)) : Nat → σ → Code α σ
  | 0, _ => fun _ => none
  | fuel + 1, s => do
    match ← body s with
    | .yield s => loop body fuel s
    | .done s => return s

/-- `p && c` -/
def andThen (p : Bool) (c : Code α Bool) : Code α Bool := if p then c else return false

end Code

section
variable {α : Type} [Inhabited α]

/-- An array as a function of the index. -/
def value (data : List α) (i : Int) : α := (cell data i).getD default

theorem cell_eq_value {data : List α} {i : Int} (h0 : 0 ≤ i) (hi : i < data.length) :
    cell data i = some (value data i) := by
  have hcell : cell data i = data[i.toNat]? := if_pos h0
  rw [value, hcell, List.getElem?_eq_getElem (by omega)]
  rfl

theorem value_set {data : List α} {i : Int} (h0 : 0 ≤ i) (hi : i < data.length) (v : α) :
    value (data.set i.toNat v) = update (value data) i v := by
  funext j
  rw [value, cell]
  by_cases hj : j = i
  · rw [hj, if_pos h0, List.getElem?_set_self (by omega), update_self]
    rfl
  · rw [update_of_ne hj, value, cell]
    by_cases hj0 : 0 ≤ j
    · rw [if_pos hj0, if_pos hj0, List.getElem?_set_ne (by omega)]
    · rw [if_neg hj0, if_neg hj0]

end

/-- An array's length, and accesses that lie in it. -/
structure Region where
  length : Nat
  Allows : Access → Prop
  inside : ∀ a, Allows a → 0 ≤ a.index ∧ a.index < length

namespace Region
variable {α β γ σ : Type} [Inhabited α]

/-- Memory whose pointer leads to the cells `f`. -/
structure Holds (R : Region) (m : Mem α) (f : Int → α) (data : List α) : Prop where
  points : m.data = some data
  length : data.length = R.length
  value : value data = f

/-- The code ends, within the region, with `Q` of its result and the cells. -/
def Ends (R : Region) (f : Int → α) (c : Code α β) (Q : β → (Int → α) → Prop) : Prop :=
  ∀ m data, R.Holds m f data → ∃ b m' g data', c.exec m = some (b, m') ∧ R.Holds m' g data' ∧
    Q b g ∧ ∃ accesses, m'.log = m.log ++ accesses ∧ ∀ a ∈ accesses, R.Allows a

/-- What an allowed access finds. -/
theorem Holds.cell_eq {R : Region} {m : Mem α} {f : Int → α} {data : List α} {i : Int}
    (hm : R.Holds m f data) (hi : 0 ≤ i ∧ i < R.length) : cell data i = some (f i) := by
  have hlt : i < data.length := by
    rw [hm.length]
    exact hi.2
  rw [cell_eq_value hi.1 hlt, hm.value]

namespace Ends
variable {R : Region} {f g : Int → α} {Q : β → (Int → α) → Prop} {c : Code α β}

theorem mono {Q' : β → (Int → α) → Prop} (hc : R.Ends f c Q) (hQ : ∀ b g, Q b g → Q' b g) :
    R.Ends f c Q' := by
  intro m data hm
  obtain ⟨b, m', g, data', hexec, hm', hq, hlog⟩ := hc m data hm
  exact ⟨b, m', g, data', hexec, hm', hQ b g hq, hlog⟩

theorem pure {b : β} (h : Q b f) : R.Ends f (Pure.pure b) Q := by
  intro m data hm
  exact ⟨b, m, f, data, rfl, hm, h, [], (List.append_nil _).symm, fun a ha => absurd ha List.not_mem_nil⟩

theorem bind {k : β → Code α γ} {Q : γ → (Int → α) → Prop}
    (hc : R.Ends f c fun b g => R.Ends g (k b) Q) : R.Ends f (c >>= k) Q := by
  intro m data hm
  obtain ⟨b, m₁, g, data₁, hexec, hm₁, hk, l₁, hl₁, ha₁⟩ := hc m data hm
  obtain ⟨b', m₂, g', data₂, hexec', hm₂, hq, l₂, hl₂, ha₂⟩ := hk m₁ data₁ hm₁
  refine ⟨b', m₂, g', data₂, ?_, hm₂, hq, l₁ ++ l₂, ?_, ?_⟩
  · show (c.exec m).bind _ = _
    rw [hexec]
    exact hexec'
  · rw [hl₂, hl₁, List.append_assoc]
  · intro a ha
    rcases List.mem_append.mp ha with ha | ha
    · exact ha₁ a ha
    · exact ha₂ a ha

theorem ite {p : Prop} [Decidable p] {c' : Code α β} (hc : p → R.Ends f c Q)
    (hc' : ¬ p → R.Ends f c' Q) : R.Ends f (if p then c else c') Q := by
  split
  case isTrue h => exact hc h
  case isFalse h => exact hc' h

theorem isNull {Q : Bool → (Int → α) → Prop} (h : Q false f) : R.Ends f Code.isNull Q := by
  intro m data hm
  refine ⟨false, m, f, data, ?_, hm, h, [], (List.append_nil _).symm, fun a ha => absurd ha List.not_mem_nil⟩
  show some (m.data.isNone, m) = _
  rw [hm.points]
  rfl

/-- A load of either kind: the cell's value, and the access logged. -/
theorem read {i : Int} {a : Access} {c : Code α α} {Q : α → (Int → α) → Prop}
    (hc : ∀ m data v, m.data = some data → cell data i = some v →
      c.exec m = some (v, { m with log := m.log ++ [a] }))
    (hindex : a.index = i) (ha : R.Allows a) (h : Q (f i) f) : R.Ends f c Q := by
  intro m data hm
  have hin : 0 ≤ i ∧ i < R.length := by
    rw [← hindex]
    exact R.inside a ha
  refine ⟨f i, { m with log := m.log ++ [a] }, f, data, hc m data (f i) hm.points (hm.cell_eq hin),
    ⟨hm.points, hm.length, hm.value⟩, h, [a], rfl, ?_⟩
  intro b hb
  rwa [List.mem_singleton.mp hb]

theorem load {i : Int} {Q : α → (Int → α) → Prop} (hi : R.Allows (.load i)) (h : Q (f i) f) :
    R.Ends f (Code.load i) Q := by
  refine read (i := i) (fun m data v hdata hcell => ?_) rfl hi h
  show (m.data.bind fun data => (cell data i).bind fun v => some (v, _)) = _
  rw [hdata, Option.bind_some, hcell]
  rfl

theorem peek {i : Int} {Q : α → (Int → α) → Prop} (hi : R.Allows (.peek i)) (h : Q (f i) f) :
    R.Ends f (Code.peek i) Q := by
  refine read (i := i) (fun m data v hdata hcell => ?_) rfl hi h
  show (m.data.bind fun data => (cell data i).bind fun v => some (v, _)) = _
  rw [hdata, Option.bind_some, hcell]
  rfl

theorem store {i : Int} {v : α} {Q : Unit → (Int → α) → Prop} (hi : R.Allows (.store i))
    (h : Q () (update f i v)) : R.Ends f (Code.store i v) Q := by
  intro m data hm
  have hin : 0 ≤ i ∧ i < data.length := by
    rw [hm.length]
    exact R.inside _ hi
  refine ⟨(), { m with data := some (data.set i.toNat v), log := m.log ++ [.store i] },
    update f i v, data.set i.toNat v, ?_, ⟨rfl, ?_, ?_⟩, h, [.store i], rfl, ?_⟩
  · simp [Code.exec, Code.store, hm.points, hin]
  · rw [List.length_set, hm.length]
  · rw [value_set hin.1 hin.2, hm.value]
  · intro a ha
    rwa [List.mem_singleton.mp ha]

theorem print {text : String} {Q : Unit → (Int → α) → Prop} (h : Q () f) :
    R.Ends f (Code.print text) Q := by
  intro m data hm
  exact ⟨(), { m with out := m.out ++ text }, f, data, rfl, ⟨hm.points, hm.length, hm.value⟩, h, [],
    (List.append_nil _).symm, fun a ha => absurd ha List.not_mem_nil⟩

theorem andThen {p : Bool} {c : Code α Bool} {Q : Bool → (Int → α) → Prop}
    (hc : p = true → R.Ends f c Q) (hfalse : p = false → Q false f) :
    R.Ends f (Code.andThen p c) Q := by
  cases p with
  | true => exact hc rfl
  | false => exact pure (hfalse rfl)

/-- What a round is to do: keep the invariant and come nearer to the end, or leave
    with the postcondition. -/
def Round (I : σ → (Int → α) → Prop) (variant : σ → Nat) (Q : σ → (Int → α) → Prop) (s : σ) :
    ForInStep σ → (Int → α) → Prop
  | .yield s', g => I s' g ∧ variant s' < variant s
  | .done s', g => Q s' g

theorem loop (I : σ → (Int → α) → Prop) (variant : σ → Nat) {Q : σ → (Int → α) → Prop}
    {body : σ → Code α (ForInStep σ)} {fuel : Nat} {s : σ}
    (hround : ∀ s f, I s f → R.Ends f (body s) (Round I variant Q s))
    (hinit : I s f) (hfuel : variant s < fuel) : R.Ends f (Code.loop body fuel s) Q := by
  induction fuel generalizing s f with
  | zero => exact absurd hfuel (Nat.not_lt_zero _)
  | succ fuel ih =>
    rw [Code.loop]
    refine bind (mono (hround s f hinit) ?_)
    intro step g hstep
    cases step with
    | yield s' => exact ih hstep.1 (Nat.lt_of_lt_of_le hstep.2 (Nat.le_of_lt_succ hfuel))
    | done s' => exact pure hstep

/-- `while (more && test(data[s])) s = next(s);` stops at the first index that is the
    last one or whose cell fails the test. -/
theorem scan {more : Int → Prop} {test : α → Prop} [DecidablePred more] [DecidablePred test]
    {next : Int → Int} (I : Int → Prop) (variant : Int → Nat) {fuel : Nat} {s : Int}
    (hload : ∀ s, I s → more s → R.Allows (.load s))
    (hnext : ∀ s, I s → more s → test (f s) → I (next s) ∧ variant (next s) < variant s)
    (hinit : I s) (hfuel : variant s < fuel) :
    R.Ends f
      (Code.loop (fun s => do
        if ← Code.andThen (more s) (return test (← Code.load s)) then return .yield (next s)
        else return .done s) fuel s)
      fun s g => g = f ∧ I s ∧ (¬ more s ∨ ¬ test (f s)) := by
  refine loop (fun s g => g = f ∧ I s) variant ?_ ⟨rfl, hinit⟩ hfuel
  intro s g hinv
  obtain ⟨rfl, hs⟩ := hinv
  refine bind (andThen (fun hmore => ?_) fun hlast => ?_)
  · have hmore : more s := of_decide_eq_true hmore
    refine bind (load (hload s hs hmore) (pure (ite (fun htest => ?_) fun hfails => ?_)))
    · obtain ⟨hs', hlater⟩ := hnext s hs hmore (of_decide_eq_true htest)
      exact pure ⟨⟨rfl, hs'⟩, hlater⟩
    · exact pure ⟨rfl, hs, Or.inr fun htest => hfails (decide_eq_true htest)⟩
  · refine ite (fun h => absurd h Bool.false_ne_true) fun _ => ?_
    exact pure ⟨rfl, hs, Or.inl (of_decide_eq_false hlast)⟩

/-- Code run on an array. -/
theorem exec {data : List α} (hc : R.Ends (value data) c Q) (hlength : data.length = R.length) :
    ∃ b m data', c.exec { data := some data } = some (b, m) ∧ m.data = some data' ∧
      data'.length = data.length ∧ Q b (value data') ∧ ∀ a ∈ m.log, R.Allows a := by
  obtain ⟨b, m, g, data', hexec, hm, hq, accesses, hlog, hall⟩ :=
    hc { data := some data } data ⟨rfl, hlength, rfl⟩
  refine ⟨b, m, data', hexec, hm.points, hm.length.trans hlength.symm, ?_, ?_⟩
  · rw [hm.value]
    exact hq
  · rw [hlog]
    exact hall

end Ends

end Region

/-! What putting a part of an array in order means. -/

/-- The cells from `l` to `r`. -/
def slice {α : Type} (l r : Int) (data : List α) : List α :=
  (data.drop l.toNat).take (r + 1 - l).toNat

/-- The cells from `l` to `r` ascend, and are those of `data`; the others are as they
    were. -/
structure Sorts {α : Type} [LE α] (l r : Int) (data data' : List α) : Prop where
  length_eq : data'.length = data.length
  outside : ∀ i, i < l ∨ r < i → cell data' i = cell data i
  perm : (slice l r data').Perm (slice l r data)
  ascending : (slice l r data').Pairwise (· ≤ ·)

section
variable {α : Type} {l r : Int} {data data' : List α}

theorem slice_get {k : Nat} (hl : 0 ≤ l) (hk : l + k ≤ r) :
    (slice l r data)[k]? = cell data (l + k) := by
  have hlt : k < (r + 1 - l).toNat := by omega
  have hindex : l.toNat + k = (l + k).toNat := by omega
  have h0 : 0 ≤ l + k := by omega
  rw [slice, List.getElem?_take_of_lt hlt, List.getElem?_drop, hindex, cell, if_pos h0]

theorem slice_eq_map [Inhabited α] (hin : l ≤ r → 0 ≤ l ∧ r < data.length) :
    slice l r data = (indices l r).map (value data) := by
  apply List.ext_getElem?
  intro k
  by_cases hk : l + k ≤ r
  · obtain ⟨hl, hr⟩ := hin (by omega)
    have hrange : k < (r + 1 - l).toNat := by omega
    have h0 : 0 ≤ l + k := by omega
    have hlt : l + k < data.length := by omega
    rw [slice_get hl hk, cell_eq_value h0 hlt, indices, List.map_map, List.getElem?_map,
      List.getElem?_range hrange]
    rfl
  · have hslice : (slice l r data).length ≤ k := by
      rw [slice, List.length_take]
      omega
    have hindices : ((indices l r).map (value data)).length ≤ k := by
      rw [indices, List.length_map, List.length_map, List.length_range]
      omega
    rw [List.getElem?_eq_none hslice, List.getElem?_eq_none hindices]

theorem cell_congr [Inhabited α] {i : Int} (hlength : data'.length = data.length)
    (hvalue : value data' i = value data i) : cell data' i = cell data i := by
  by_cases hi : 0 ≤ i ∧ i < data.length
  · have hi' : i < data'.length := by
      rw [hlength]
      exact hi.2
    rw [cell_eq_value hi.1 hi.2, cell_eq_value hi.1 hi', hvalue]
  · by_cases h0 : 0 ≤ i
    · have hnone : data[i.toNat]? = none := List.getElem?_eq_none (by omega)
      have hnone' : data'[i.toNat]? = none := List.getElem?_eq_none (by omega)
      rw [cell, cell, if_pos h0, if_pos h0, hnone, hnone']
    · rw [cell, cell, if_neg h0, if_neg h0]

theorem value_eq_getElem [Inhabited α] {i : Int} (h0 : 0 ≤ i) (hi : i.toNat < data.length) :
    value data i = data[i.toNat] := by
  rw [value, cell, if_pos h0, List.getElem?_eq_getElem hi]
  rfl

theorem ascendingOn_value [Preorder α] [Inhabited α] (hasc : data.Pairwise (· ≤ ·)) :
    AscendingOn 0 (data.length - 1) (value data) := by
  intro i j hi hij hj
  rcases Int.lt_or_eq_of_le hij with hlt | rfl
  · rw [value_eq_getElem hi (by omega), value_eq_getElem (by omega) (by omega)]
    exact List.pairwise_iff_getElem.mp hasc _ _ _ _ (by omega)
  · exact le_refl _

/-- A stretch that was rearranged and ascends has been sorted. -/
theorem sorts_of_rearranged [LE α] [Inhabited α] (hlength : data'.length = data.length)
    (hin : l ≤ r → 0 ≤ l ∧ r < data.length) (hf : Rearranged l r (value data) (value data'))
    (hasc : AscendingOn l r (value data')) : Sorts l r data data' := by
  have hin' : l ≤ r → 0 ≤ l ∧ r < data'.length := by
    rw [hlength]
    exact hin
  refine ⟨hlength, fun i hi => cell_congr hlength (hf.outside hi), ?_, ?_⟩
  · rw [slice_eq_map hin, slice_eq_map hin']
    exact hf.perm
  · rw [slice_eq_map hin']
    exact hasc.pairwise

/-- There is one way to sort. -/
theorem Sorts.unique [PartialOrder α] {data₁ data₂ : List α} (hl : 0 ≤ l)
    (h₁ : Sorts l r data data₁) (h₂ : Sorts l r data data₂) : data₁ = data₂ := by
  have hslice : slice l r data₁ = slice l r data₂ :=
    (h₁.perm.trans h₂.perm.symm).eq_of_pairwise' h₁.ascending h₂.ascending
  have hcell : ∀ i, cell data₁ i = cell data₂ i := by
    intro i
    by_cases hi : l ≤ i ∧ i ≤ r
    · obtain ⟨k, rfl⟩ := Int.le.dest hi.1
      rw [← slice_get hl hi.2, ← slice_get hl hi.2, hslice]
    · rw [h₁.outside i (by omega), h₂.outside i (by omega)]
  apply List.ext_getElem?
  intro k
  have hk := hcell k
  rwa [cell, cell, if_pos (Int.natCast_nonneg k), if_pos (Int.natCast_nonneg k),
    Int.toNat_natCast] at hk

end

end RubbishStore.Lib
