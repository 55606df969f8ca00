import RubbishStore.Algorithm.BinarySearch
import RubbishStore.Lib.Rounding

/- Whether `binarySearch` comes to an end in an array of up to 2^30 cells, where the sum
   of two indices is still an `int`. From 2^24 on not every index is a `float`: the
   midpoint of a short interval may be one of its ends, and the call then goes on with
   the interval it was given, or reads behind the array. The search only ever looks at
   indices that are floats (`Settles`), so it ends if there is one to end on, or if it
   stays below 2^24 (`binarySearch_terminates_iff`). -/
namespace RubbishStore.Algorithm
open RubbishStore.Lib

/-- The call comes to an end, however deep it is nested, and within the array. -/
def Terminates (list : List Int) (search : Int) : Prop :=
  ∃ fuel returned m, (binarySearchCalls fuel search 0 list.length).exec { data := some list } =
    some (returned, m)

/-- The search can come to look at index `i` of an array of `length` cells: the index is
    a float, and if it is the last one and above 2^24, its significand is even. -/
def Settles (length i : Nat) : Prop :=
  toFloat i = i ∧ (i + 1 = length → i ≤ 16777216 ∨ Rounding.significand 24 i % 2 = 0)

instance (length : Nat) : DecidablePred (Settles length) := fun _ =>
  inferInstanceAs (Decidable (_ ∧ _))

/-- The calls, less what they return: whether they end. -/
def halts (list : List Int) (search : Int) : Nat → Nat → Nat → Bool
  | 0, _, _ => false
  | fuel + 1, start, stop =>
    let position := toFloat ((start + stop) / 2)
    if stop = start + 1 then list[start]?.isSome
    else
      (list[position]?.map fun value =>
        if value = search then true
        else if value > search then halts list search fuel start position
        else halts list search fuel position stop).getD false

theorem toFloat_eq_nearest (n : Nat) : toFloat n = Rounding.nearest 24 n := by
  by_cases hn : n < 16777216
  · have hkept : Rounding.Representable 24 n :=
      Rounding.representable_of_le (by decide) (Nat.le_of_lt hn)
    rw [toFloat, if_pos hn, Rounding.nearest_eq (by decide) hkept]
  · have hulp : Rounding.ulp 24 n = 1 <<< (n.log2 - 23) := by
      rw [Rounding.ulp, show n.log2 + 1 - 24 = n.log2 - 23 by omega]
    rw [toFloat, if_neg hn, Rounding.nearest, Rounding.high, Rounding.low, Rounding.significand, hulp]

theorem toFloat_eq_iff {n : Nat} : toFloat n = n ↔ Rounding.Representable 24 n := by
  rw [toFloat_eq_nearest]
  refine ⟨fun h => ?_, Rounding.nearest_eq (by decide)⟩
  rw [← h]
  exact Rounding.representable_nearest (by decide) n

theorem toFloat_toFloat (n : Nat) : toFloat (toFloat n) = toFloat n := by
  rw [toFloat_eq_iff, toFloat_eq_nearest]
  exact Rounding.representable_nearest (by decide) n

theorem load_exec {list : List Int} {m : Mem Int} (hm : m.data = some list) (i : Nat) :
    (Code.load (i : Int)).exec m =
      list[i]?.map fun v => (v, { m with log := m.log ++ [.load (i : Int)] }) := by
  show (m.data.bind fun data => (cell data i).bind fun v => some (v, _)) = _
  rw [hm, Option.bind_some, cell, if_pos (Int.natCast_nonneg i), Int.toNat_natCast]
  cases list[i]? with
  | none => rfl
  | some v => rfl

/-- A load, and what is done with the value that it finds. -/
theorem isSome_load_bind {β : Type} {list : List Int} {m : Mem Int} (hm : m.data = some list)
    (i : Nat) (k : Int → Code Int β) {b : Int → Bool}
    (hk : ∀ v m', list[i]? = some v → m'.data = some list → ((k v).exec m').isSome = b v) :
    ((Code.load (i : Int) >>= k).exec m).isSome = (list[i]?.map b).getD false := by
  have hbind : (Code.load (i : Int) >>= k).exec m =
      ((Code.load (i : Int)).exec m).bind fun r => (k r.1).exec r.2 := rfl
  rw [hbind, load_exec hm]
  cases hcell : list[i]? with
  | none => rfl
  | some v => exact hk v _ hcell hm

theorem isSome_map {β γ : Type} {c : Code Int β} (f : β → γ) (m : Mem Int) :
    ((c >>= fun b => pure (f b)).exec m).isSome = (c.exec m).isSome := by
  have hbind : (c >>= fun b => pure (f b)).exec m = (c.exec m).bind fun r => some (f r.1, r.2) := rfl
  rw [hbind]
  cases c.exec m with
  | none => rfl
  | some r => rfl

theorem isSome_binarySearchCalls {list : List Int} (search : Int) (fuel start stop : Nat)
    {m : Mem Int} (hm : m.data = some list) :
    ((binarySearchCalls fuel search start stop).exec m).isSome =
      halts list search fuel start stop := by
  induction fuel generalizing start stop m with
  | zero => rfl
  | succ fuel ih =>
    have hmid : throughFloat (((start : Int) + stop).tdiv 2) = (toFloat ((start + stop) / 2) : Nat) := by
      have hdiv : ((start : Int) + stop).tdiv 2 = (((start + stop) / 2 : Nat) : Int) := by
        rw [Int.tdiv_eq_ediv_of_nonneg (by omega)]
        omega
      rw [hdiv, throughFloat, if_neg (by omega), Int.toNat_natCast]
    have hone : ((stop : Int) - start = 1) ↔ stop = start + 1 := by omega
    rw [binarySearchCalls, halts, hmid]
    generalize toFloat ((start + stop) / 2) = position
    by_cases hstop : stop = start + 1
    · have hlast : list[start]?.isSome = (list[start]?.map fun _ => true).getD false := by
        cases list[start]? with
        | none => rfl
        | some v => rfl
      simp only [if_pos (hone.mpr hstop), if_pos hstop, hlast]
      refine isSome_load_bind hm start _ fun v m' hv hm' => ?_
      split
      · rfl
      · rw [isSome_load_bind (b := fun _ => true) hm' start _ fun v m'' _ _ => ?_, hv]
        · rfl
        · split <;> rfl
    · simp only [if_neg fun h => hstop (hone.mp h), if_neg hstop]
      refine isSome_load_bind hm position _ fun v m' hv hm' => ?_
      split
      · rfl
      · have hturn := isSome_load_bind (b := fun v =>
          if v > search then halts list search fuel start position
          else halts list search fuel position stop) hm' position
          (fun v =>
            if v > search then
              binarySearchCalls fuel search start position >>= fun r => pure ((none, r.2) : Option Int × Int)
            else binarySearchCalls fuel search position stop >>= fun r => pure (none, r.2))
          fun v m'' _ hm'' => ?_
        · rw [hv] at hturn
          exact hturn
        · split
          · rw [isSome_map, ih start position hm'']
          · rw [isSome_map, ih position stop hm'']

theorem terminates_iff_halts (list : List Int) (search : Int) :
    Terminates list search ↔ ∃ fuel, halts list search fuel 0 list.length = true := by
  have hsome : ∀ fuel, ((binarySearchCalls fuel search 0 list.length).exec
      { data := some list }).isSome = halts list search fuel 0 list.length :=
    fun fuel => isSome_binarySearchCalls search fuel 0 list.length rfl
  constructor
  · intro hend
    obtain ⟨fuel, returned, m, hexec⟩ := hend
    refine ⟨fuel, ?_⟩
    rw [← hsome, hexec]
    rfl
  · intro hend
    obtain ⟨fuel, hhalts⟩ := hend
    rw [← hsome] at hhalts
    obtain ⟨r, hexec⟩ := Option.isSome_iff_exists.mp hhalts
    exact ⟨fuel, r.1, r.2, hexec⟩

theorem getElem_le {list : List Int} (hasc : list.Pairwise (· ≤ ·)) {i j : Nat} (hij : i ≤ j)
    (hj : j < list.length) : list[i] ≤ list[j] :=
  hasc.rel_get_of_le (a := ⟨i, Nat.lt_of_le_of_lt hij hj⟩) (b := ⟨j, hj⟩) hij

/-- In an ascending array the elements smaller than the key come first. -/
theorem lt_search_iff {list : List Int} {search : Int} (hasc : list.Pairwise (· ≤ ·)) {i : Nat}
    (hi : i < list.length) : list[i] < search ↔ i < list.countP (· < search) := by
  induction list generalizing i with
  | nil => exact absurd hi (Nat.not_lt_zero i)
  | cons v list ih =>
    obtain ⟨hv, hasc⟩ := List.pairwise_cons.mp hasc
    by_cases hlt : v < search
    · rw [List.countP_cons_of_pos (by exact decide_eq_true hlt)]
      cases i with
      | zero => exact ⟨fun _ => Nat.succ_pos _, fun _ => hlt⟩
      | succ i =>
        rw [List.getElem_cons_succ, ih hasc (Nat.lt_of_succ_lt_succ hi), Nat.succ_lt_succ_iff]
    · have hnone : list.countP (· < search) = 0 := by
        rw [List.countP_eq_zero]
        intro w hw hless
        have := hv w hw
        have := of_decide_eq_true hless
        omega
      have hneg : ¬ decide (v < search) = true := fun hless => hlt (of_decide_eq_true hless)
      rw [List.countP_cons_of_neg (p := fun w => decide (w < search)) hneg, hnone]
      refine ⟨fun hless => ?_, fun h => absurd h (Nat.not_lt_zero i)⟩
      cases i with
      | zero => exact absurd hless hlt
      | succ i =>
        have := hv _ (List.getElem_mem (Nat.lt_of_succ_lt_succ hi))
        rw [List.getElem_cons_succ] at hless
        omega

/-! Searches that end. -/

section
variable {list : List Int} {search : Int}

/-- What a call is to do: it has one cell left, or its midpoint lies inside and both
    ways on keep the invariant. -/
def Narrows (list : List Int) (search : Int) (I : Nat → Nat → Prop) (start stop : Nat) : Prop :=
  let position := toFloat ((start + stop) / 2)
  stop = start + 1 ∨ (start < position ∧ position < stop) ∧
    ∀ hin : position < list.length,
      (search < list[position] → I start position) ∧ (list[position] < search → I position stop)

/-- Intervals that keep being narrowed come to an end. -/
theorem halts_of_narrows {I : Nat → Nat → Prop}
    (hbounds : ∀ start stop, I start stop → start < stop ∧ stop ≤ list.length)
    (hnarrow : ∀ start stop, I start stop → Narrows list search I start stop) (fuel : Nat)
    {start stop : Nat} (hI : I start stop) (hfuel : stop - start < fuel) :
    halts list search fuel start stop = true := by
  induction fuel generalizing start stop with
  | zero => exact absurd hfuel (Nat.not_lt_zero _)
  | succ fuel ih =>
    obtain ⟨hlt, hstop⟩ := hbounds start stop hI
    rw [halts]
    rcases hnarrow start stop hI with hone | ⟨⟨hpos, hpos'⟩, hways⟩
    · rw [if_pos hone, List.getElem?_eq_getElem (by omega)]
      rfl
    · rw [if_neg (by omega)]
      generalize toFloat ((start + stop) / 2) = position at hpos hpos' hways ⊢
      have hin : position < list.length := by omega
      obtain ⟨hdown, hup⟩ := hways hin
      rw [List.getElem?_eq_getElem hin, Option.map_some, Option.getD_some]
      split
      · rfl
      · split
        case isTrue hgt => exact ih (hdown hgt) (by omega)
        case isFalse hle => exact ih (hup (by omega)) (by omega)

/-- The midpoint of an interval with an index inside that the search can come to. -/
theorem midpoint_inside {start i stop length : Nat} (hstart : toFloat start = start)
    (hi : Settles length i) (hlt : start < i) (hlt' : i < stop)
    (hstop : stop = length ∨ toFloat stop = stop) :
    start < toFloat ((start + stop) / 2) ∧ toFloat ((start + stop) / 2) < stop := by
  have hs := toFloat_eq_iff.mp hstart
  have hr := toFloat_eq_iff.mp hi.1
  have hpow : 1 <<< 24 = 16777216 := rfl
  rw [toFloat_eq_nearest]
  refine ⟨Rounding.lt_nearest_mid (by decide) hs hr hlt hlt' fun hlast => ?_,
    Rounding.nearest_mid_lt (by decide) hr hlt hlt'⟩
  rw [hpow]
  rcases hstop with heq | hfloat
  · exact hi.2 (by omega)
  · -- two floats that are neighbours are below 2 ^ 24
    by_contra hbig
    have hreven := hr.even (by omega)
    have hteven := (toFloat_eq_iff.mp hfloat).even (by omega)
    omega

/-- The search stays below 2^24, where every index is a float. -/
theorem halts_of_few (hasc : list.Pairwise (· ≤ ·)) (hne : list ≠ [])
    (hfew : list.countP (· < search) ≤ 16777216) :
    halts list search (list.length + 1) 0 list.length = true := by
  have hpos : 0 < list.length := List.length_pos_iff.mpr hne
  refine halts_of_narrows (I := fun start stop => start < stop ∧ stop ≤ list.length ∧
    start < 16777216 ∧ (stop = list.length ∨ toFloat stop = stop)) (fun start stop hI => ⟨hI.1, hI.2.1⟩)
    ?_ _ ⟨hpos, Nat.le_refl _, by omega, Or.inl rfl⟩ (Nat.lt_succ_self _)
  intro start stop hI
  obtain ⟨hlt, hstop, hsmall, hends⟩ := hI
  by_cases hone : stop = start + 1
  · exact Or.inl hone
  · have hnext : Settles list.length (start + 1) :=
      ⟨toFloat_eq (by omega), fun _ => Or.inl (by omega)⟩
    have hinside := midpoint_inside (toFloat_eq (by omega)) hnext (Nat.lt_succ_self _) (by omega) hends
    refine Or.inr ⟨hinside, fun hin => ⟨fun _ => ?_, fun hless => ?_⟩⟩
    · exact ⟨hinside.1, Nat.le_of_lt hin, hsmall, Or.inr (toFloat_toFloat _)⟩
    · have hcount := (lt_search_iff hasc hin).mp hless
      exact ⟨hinside.2, hstop, by omega, hends⟩

/-- The key stands at an index that the search can come to. -/
theorem halts_of_settles (hasc : list.Pairwise (· ≤ ·)) {i : Nat} (hi : i < list.length)
    (hsettles : Settles list.length i) (hkey : list[i] = search) (hpos : 0 < i) :
    halts list search (list.length + 1) 0 list.length = true := by
  refine halts_of_narrows (I := fun start stop => start < i ∧ i < stop ∧ stop ≤ list.length ∧
    toFloat start = start ∧ (stop = list.length ∨ toFloat stop = stop))
    (fun start stop hI => ⟨Nat.lt_trans hI.1 hI.2.1, hI.2.2.1⟩) ?_ _
    ⟨hpos, hi, Nat.le_refl _, rfl, Or.inl rfl⟩ (Nat.lt_succ_self _)
  intro start stop hI
  obtain ⟨hlt, hlt', hstop, hstart, hends⟩ := hI
  have hinside := midpoint_inside hstart hsettles hlt hlt' hends
  refine Or.inr ⟨hinside, fun hin => ⟨fun hgt => ?_, fun hless => ?_⟩⟩
  · have hbelow : i < toFloat ((start + stop) / 2) := by
      by_contra hge
      have hle := getElem_le hasc (Nat.le_of_not_lt hge) hi
      omega
    exact ⟨hlt, hbelow, Nat.le_of_lt hin, hstart, Or.inr (toFloat_toFloat _)⟩
  · have habove : toFloat ((start + stop) / 2) < i := by
      by_contra hge
      have hle := getElem_le hasc (Nat.le_of_not_lt hge) hin
      omega
    exact ⟨habove, hlt', hstop, toFloat_toFloat _, hends⟩

/-- All elements are smaller than the key, and the search can come to the last one. -/
theorem halts_of_last (hasc : list.Pairwise (· ≤ ·)) (hne : list ≠ [])
    (hall : list.countP (· < search) = list.length) (hsettles : Settles list.length (list.length - 1)) :
    halts list search (list.length + 1) 0 list.length = true := by
  have hpos : 0 < list.length := List.length_pos_iff.mpr hne
  refine halts_of_narrows (I := fun start stop => start < stop ∧ stop = list.length ∧
    toFloat start = start) (fun start stop hI => ⟨hI.1, Nat.le_of_eq hI.2.1⟩) ?_ _
    ⟨hpos, rfl, rfl⟩ (Nat.lt_succ_self _)
  intro start stop hI
  obtain ⟨hlt, rfl, hstart⟩ := hI
  by_cases hone : list.length = start + 1
  · exact Or.inl hone
  · have hinside := midpoint_inside hstart hsettles (by omega) (by omega) (Or.inl rfl)
    refine Or.inr ⟨hinside, fun hin => ⟨fun hgt => ?_, fun hless => ?_⟩⟩
    · have hcount : toFloat ((start + list.length) / 2) < list.countP (· < search) := by
        rw [hall]
        exact hin
      have hless := (lt_search_iff hasc hin).mpr hcount
      omega
    · exact ⟨hinside.2, rfl, toFloat_toFloat _⟩

/-! Searches that do not. -/

/-- What holds of every call of a search that has no index to end on. -/
structure Lost (list : List Int) (search : Int) (start stop : Nat) : Prop where
  lt : start < stop
  stop_le : stop ≤ list.length
  settles : Settles list.length start
  below : ∀ h : start < list.length, list[start] < search
  above : stop ≠ list.length →
    toFloat stop = stop ∧ ∀ h : stop < list.length, search < list[stop]

namespace Lost
variable {start stop : Nat}

theorem le_midpoint (h : Lost list search start stop) : start ≤ toFloat ((start + stop) / 2) := by
  have hlt := h.lt
  rw [toFloat_eq_nearest]
  exact Rounding.le_nearest (by decide) (toFloat_eq_iff.mp h.settles.1) (by omega)

/-- The midpoint, if it is in the array and its value is not too great. -/
theorem settles_midpoint (h : Lost list search start stop)
    (hin : toFloat ((start + stop) / 2) < list.length)
    (hle : list[toFloat ((start + stop) / 2)] ≤ search) :
    toFloat ((start + stop) / 2) < stop ∧ Settles list.length (toFloat ((start + stop) / 2)) := by
  have hs := toFloat_eq_iff.mp h.settles.1
  have hlt := h.lt
  have hge := h.le_midpoint
  have hbelow : toFloat ((start + stop) / 2) < stop := by
    by_cases hend : stop = list.length
    · omega
    · obtain ⟨hfloat, hgreater⟩ := h.above hend
      have hle' : toFloat ((start + stop) / 2) ≤ stop := by
        rw [toFloat_eq_nearest]
        exact Rounding.nearest_le (by decide) (toFloat_eq_iff.mp hfloat) (by omega)
      rcases Nat.lt_or_eq_of_le hle' with hlt' | heq
      · exact hlt'
      · have hgt := hgreater (by omega)
        simp only [heq] at hle
        omega
  refine ⟨hbelow, toFloat_toFloat _, fun hlast => ?_⟩
  have hstop := h.stop_le
  rcases Nat.lt_or_eq_of_le hge with hlt' | heq
  · by_cases hsmall : toFloat ((start + stop) / 2) ≤ 16777216
    · exact Or.inl hsmall
    · refine Or.inr (Rounding.even_of_nearest_mid (by decide) hs
        (toFloat_eq_iff.mp (toFloat_toFloat _)) hlt' (Nat.lt_of_not_le hsmall) ?_)
      rw [← toFloat_eq_nearest, show toFloat ((start + stop) / 2) + 1 = stop by omega]
  · rw [← heq] at hlast ⊢
    exact h.settles.2 hlast

theorem down (h : Lost list search start stop) (hin : toFloat ((start + stop) / 2) < list.length)
    (hgt : search < list[toFloat ((start + stop) / 2)]) :
    Lost list search start (toFloat ((start + stop) / 2)) := by
  have hlt := h.lt
  have hge := h.le_midpoint
  have hne : start ≠ toFloat ((start + stop) / 2) := by
    intro heq
    have hless := h.below (by omega)
    simp only [← heq] at hgt
    omega
  exact ⟨by omega, Nat.le_of_lt hin, h.settles, h.below, fun _ => ⟨toFloat_toFloat _, fun _ => hgt⟩⟩

theorem up (h : Lost list search start stop) (hin : toFloat ((start + stop) / 2) < list.length)
    (hless : list[toFloat ((start + stop) / 2)] < search) :
    Lost list search (toFloat ((start + stop) / 2)) stop := by
  obtain ⟨hlt, hsettles⟩ := h.settles_midpoint hin (Int.le_of_lt hless)
  exact ⟨hlt, h.stop_le, hsettles, fun _ => hless, h.above⟩

end Lost

theorem halts_of_lost (hasc : list.Pairwise (· ≤ ·))
    (hmany : 16777216 < list.countP (· < search))
    (hkey : ∀ i, ∀ h : i < list.length, list[i] = search → ¬ Settles list.length i)
    (hlast : list.countP (· < search) = list.length → ¬ Settles list.length (list.length - 1))
    (fuel : Nat) {start stop : Nat} (h : Lost list search start stop) :
    halts list search fuel start stop = false := by
  induction fuel generalizing start stop with
  | zero => rfl
  | succ fuel ih =>
    have hlt := h.lt
    have hstop := h.stop_le
    have hless := h.below (by omega)
    have hfew := (lt_search_iff hasc (by omega)).mp hless
    have hone : stop ≠ start + 1 := by
      intro hone
      by_cases hend : stop = list.length
      · have hcount := List.countP_le_length (p := fun v => decide (v < search)) (l := list)
        have hall : list.countP (· < search) = list.length := by omega
        apply hlast hall
        rw [show list.length - 1 = start by omega]
        exact h.settles
      · -- two floats that are neighbours are below 2 ^ 24
        obtain ⟨hfloat, hgreater⟩ := h.above hend
        have hin : stop < list.length := by omega
        have hgt : ¬ list[stop] < search := by
          have := hgreater hin
          omega
        have hmost := mt (lt_search_iff hasc hin).mpr hgt
        have hpow : 1 <<< 24 = 16777216 := rfl
        have hseven := (toFloat_eq_iff.mp h.settles.1).even (by omega)
        have hteven := (toFloat_eq_iff.mp hfloat).even (by omega)
        omega
    rw [halts, if_neg hone]
    by_cases hin : toFloat ((start + stop) / 2) < list.length
    · have hsettles := h.settles_midpoint hin
      have hdown := h.down hin
      have hup := h.up hin
      rw [List.getElem?_eq_getElem hin, Option.map_some, Option.getD_some]
      split
      case isTrue heq => exact absurd (hsettles (Int.le_of_eq heq)).2 (hkey _ hin heq)
      case isFalse hne =>
        split
        case isTrue hgt => exact ih (hdown hgt)
        case isFalse hle => exact ih (hup (by omega))
    · -- the midpoint was rounded up to the length: a read behind the array
      rw [List.getElem?_eq_none (Nat.le_of_not_lt hin)]
      rfl

/-- With nothing to end on, no depth of calls is enough. -/
theorem not_terminates (hasc : list.Pairwise (· ≤ ·))
    (hmany : 16777216 < list.countP (· < search))
    (hkey : ∀ i, ∀ h : i < list.length, list[i] = search → ¬ Settles list.length i)
    (hlast : list.countP (· < search) = list.length → ¬ Settles list.length (list.length - 1)) :
    ¬ Terminates list search := by
  rw [terminates_iff_halts]
  intro hend
  obtain ⟨fuel, hhalts⟩ := hend
  have hcount := List.countP_le_length (p := fun v => decide (v < search)) (l := list)
  have hstart : Lost list search 0 list.length :=
    ⟨by omega, Nat.le_refl _, ⟨rfl, fun h => by omega⟩,
      fun hpos => (lt_search_iff hasc hpos).mpr (by omega), fun h => absurd rfl h⟩
  rw [halts_of_lost hasc hmany hkey hlast fuel hstart] at hhalts
  exact absurd hhalts Bool.false_ne_true

/-- The search comes to an end if at most 2^24 elements are smaller than the key, or the
    key stands at an index that the search can come to, or all elements are smaller and
    the last index is such a one; and in no other case. -/
theorem binarySearch_terminates_iff (list : List Int) (search : Int)
    (hasc : list.Pairwise (· ≤ ·)) (hne : list ≠ []) :
    Terminates list search ↔
      list.countP (· < search) ≤ 16777216 ∨
      (∃ i, list[i]? = some search ∧ Settles list.length i) ∨
      (list.countP (· < search) = list.length ∧ Settles list.length (list.length - 1)) := by
  constructor
  · intro hend
    by_contra hno
    obtain ⟨hmany, hno⟩ := not_or.mp hno
    obtain ⟨hkey, hlast⟩ := not_or.mp hno
    refine not_terminates hasc (Nat.lt_of_not_le hmany) (fun i h heq hsettles => ?_)
      (fun hall hsettles => hlast ⟨hall, hsettles⟩) hend
    exact hkey ⟨i, List.getElem?_eq_some_iff.mpr ⟨h, heq⟩, hsettles⟩
  · intro hcond
    rw [terminates_iff_halts]
    refine ⟨list.length + 1, ?_⟩
    by_cases hfew : list.countP (· < search) ≤ 16777216
    · exact halts_of_few hasc hne hfew
    · rcases hcond.resolve_left hfew with ⟨i, hkey, hsettles⟩ | ⟨hall, hsettles⟩
      · obtain ⟨hi, hkey⟩ := List.getElem?_eq_some_iff.mp hkey
        refine halts_of_settles hasc hi hsettles hkey (Nat.pos_of_ne_zero fun hzero => ?_)
        have hless : list[i] < search := (lt_search_iff hasc hi).mpr (by omega)
        omega
      · exact halts_of_last hasc hne hall hsettles

end

theorem binarySearch_terminates_iff_two :
    Terminates [1, 3] 2 ↔
      [(1 : Int), 3].countP (· < 2) ≤ 16777216 ∨
      (∃ i, [(1 : Int), 3][i]? = some 2 ∧ Settles [(1 : Int), 3].length i) ∨
      ([(1 : Int), 3].countP (· < 2) = [(1 : Int), 3].length ∧
        Settles [(1 : Int), 3].length ([(1 : Int), 3].length - 1)) :=
  binarySearch_terminates_iff [1, 3] 2 (by decide) (by decide)

/-- 2^24 + 2 zeros, and the key 1: the last index is not a float. -/
theorem binarySearch_zeros_endless :
    let list := List.replicate 16777218 (0 : Int)
    list.Pairwise (· ≤ ·) ∧ list ≠ [] ∧ list.length ≤ 1073741824 ∧ ¬ Terminates list 1 := by
  intro list
  have hlength : list.length = 16777218 := List.length_replicate
  have hasc : list.Pairwise (· ≤ ·) := List.pairwise_replicate.mpr (Or.inr (Int.le_refl 0))
  have hzero : ∀ v ∈ list, v = 0 := fun v hv => (List.mem_replicate.mp hv).2
  have hcount : list.countP (· < 1) = 16777218 := by
    rw [← hlength, List.countP_eq_length]
    intro v hv
    rw [hzero v hv]
    rfl
  refine ⟨hasc, ?_, by omega, not_terminates hasc (by omega) ?_ ?_⟩
  · intro hnil
    rw [hnil] at hlength
    exact absurd hlength (by decide)
  · intro i hi hkey
    have := hzero _ (List.getElem_mem hi)
    omega
  · intro _
    rw [hlength]
    decide

end RubbishStore.Algorithm
