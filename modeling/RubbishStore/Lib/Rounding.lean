import Mathlib.Algebra.Order.Group.Nat

/- Natural numbers kept to `p` significant bits. Between two powers of two the numbers
   that can be kept are the multiples of a unit in the last place (`ulp`); every other
   number is replaced by the nearest one, and by the one with the even significand if it
   lies half-way (`nearest`). `low` and `high` are the two next to a number: nothing
   that can be kept lies between them (`le_low`, `high_le`), and all facts about
   `nearest` follow from that. -/
namespace RubbishStore.Lib.Rounding

section
variable (p : Nat)

/-- The unit in the last place. -/
def ulp (n : Nat) : Nat := 1 <<< (n.log2 + 1 - p)

def significand (n : Nat) : Nat := n / ulp p n

/-- The greatest number up to `n` that can be kept. -/
def low (n : Nat) : Nat := significand p n * ulp p n

def high (n : Nat) : Nat := (significand p n + 1) * ulp p n

def Representable (n : Nat) : Prop := ulp p n ∣ n

instance : DecidablePred (Representable p) := fun n => inferInstanceAs (Decidable (ulp p n ∣ n))

def nearest (n : Nat) : Nat :=
  if 2 * (n % ulp p n) < ulp p n ∨ 2 * (n % ulp p n) = ulp p n ∧ significand p n % 2 = 0 then
    low p n
  else high p n

end

section
variable {p n x : Nat}

theorem ulp_pos (p n : Nat) : 0 < ulp p n := by
  rw [ulp, Nat.one_shiftLeft]
  exact Nat.two_pow_pos _

/-- Numbers between the same powers of two have the same unit. -/
theorem ulp_congr (hlow : 1 <<< n.log2 ≤ x) (hhigh : x < 1 <<< (n.log2 + 1)) :
    ulp p x = ulp p n := by
  rw [Nat.one_shiftLeft] at hlow hhigh
  have hx : x ≠ 0 := by
    have := Nat.two_pow_pos n.log2
    omega
  rw [ulp, ulp, (Nat.log2_eq_iff hx).mpr ⟨hlow, hhigh⟩]

theorem low_add (p n : Nat) : low p n + n % ulp p n = n := Nat.div_add_mod' n (ulp p n)

theorem high_eq (p n : Nat) : high p n = low p n + ulp p n := Nat.succ_mul _ _

theorem low_le (p n : Nat) : low p n ≤ n := by
  have := low_add p n
  omega

theorem lt_high (p n : Nat) : n < high p n := by
  have hrem := Nat.mod_lt n (ulp_pos p n)
  have := low_add p n
  rw [high_eq]
  omega

/-- The unit divides the power of two below and the one above. -/
theorem ulp_dvd_pow (hp : 0 < p) (n : Nat) {k : Nat} (hk : n.log2 ≤ k) : ulp p n ∣ 1 <<< k := by
  rw [ulp, Nat.one_shiftLeft, Nat.one_shiftLeft]
  exact Nat.pow_dvd_pow 2 (by omega)

theorem pow_le_low (hp : 0 < p) (hn : n ≠ 0) : 1 <<< n.log2 ≤ low p n := by
  obtain ⟨k, hk⟩ := ulp_dvd_pow hp n (Nat.le_refl _)
  have hle : ulp p n * k ≤ n := by
    rw [← hk, Nat.one_shiftLeft]
    exact Nat.log2_self_le hn
  rw [hk, low, Nat.mul_comm]
  apply Nat.mul_le_mul_right
  rw [significand, Nat.le_div_iff_mul_le (ulp_pos p n), Nat.mul_comm]
  exact hle

theorem high_le_pow (hp : 0 < p) (n : Nat) : high p n ≤ 1 <<< (n.log2 + 1) := by
  obtain ⟨k, hk⟩ := ulp_dvd_pow hp n (Nat.le_succ _)
  have hlt : n < ulp p n * k := by
    rw [← hk, Nat.one_shiftLeft]
    exact Nat.lt_log2_self
  rw [hk, high, Nat.mul_comm]
  apply Nat.mul_le_mul_left
  exact Nat.div_lt_of_lt_mul hlt

/-! What is next to a number. -/

theorem representable_low (hp : 0 < p) (n : Nat) : Representable p (low p n) := by
  by_cases hn : n = 0
  · subst hn
    exact Nat.dvd_of_mod_eq_zero (by simp [low, significand])
  · have hlt : low p n < 1 <<< (n.log2 + 1) := by
      rw [Nat.one_shiftLeft]
      exact Nat.lt_of_le_of_lt (low_le p n) Nat.lt_log2_self
    rw [Representable, ulp_congr (pow_le_low hp hn) hlt]
    exact Nat.dvd_mul_left _ _

theorem representable_pow (hp : 0 < p) (k : Nat) : Representable p (1 <<< k) := by
  have hlog : (1 <<< k : Nat).log2 = k := by
    rw [Nat.one_shiftLeft, Nat.log2_two_pow]
  exact ulp_dvd_pow hp _ (Nat.le_of_eq hlog)

theorem high_zero (p : Nat) : high p 0 = 1 <<< (1 - p) := by
  rw [high, significand, Nat.zero_div, Nat.zero_add, Nat.one_mul, ulp]
  rfl

theorem representable_high (hp : 0 < p) (n : Nat) : Representable p (high p n) := by
  by_cases hn : n = 0
  · subst hn
    rw [high_zero]
    exact representable_pow hp _
  · rcases Nat.lt_or_eq_of_le (high_le_pow hp n) with hlt | heq
    · have hge : 1 <<< n.log2 ≤ high p n := by
        have := pow_le_low hp hn
        have := low_le p n
        have := lt_high p n
        omega
      rw [Representable, ulp_congr hge hlt]
      exact Nat.dvd_mul_left _ _
    · rw [heq]
      exact representable_pow hp _

theorem le_low (hp : 0 < p) (hx : Representable p x) (hle : x ≤ n) : x ≤ low p n := by
  by_cases hn : n = 0
  · subst hn
    rw [Nat.le_zero.mp hle]
    exact Nat.zero_le _
  · by_cases hpow : 1 <<< n.log2 ≤ x
    · have hlt : x < 1 <<< (n.log2 + 1) := by
        rw [Nat.one_shiftLeft]
        exact Nat.lt_of_le_of_lt hle Nat.lt_log2_self
      obtain ⟨k, hk⟩ := hx
      rw [ulp_congr hpow hlt] at hk
      rw [hk, low, Nat.mul_comm]
      apply Nat.mul_le_mul_right
      rw [significand, Nat.le_div_iff_mul_le (ulp_pos p n), Nat.mul_comm, ← hk]
      exact hle
    · exact Nat.le_trans (Nat.le_of_not_le hpow) (pow_le_low hp hn)

theorem high_le (hp : 0 < p) (hx : Representable p x) (hlt : n < x) : high p n ≤ x := by
  by_cases hn : n = 0
  · subst hn
    rw [high_zero, show 1 - p = 0 by omega]
    exact hlt
  · by_cases hpow : x < 1 <<< (n.log2 + 1)
    · have hge : 1 <<< n.log2 ≤ x := by
        rw [Nat.one_shiftLeft]
        exact Nat.le_trans (Nat.log2_self_le hn) (Nat.le_of_lt hlt)
      obtain ⟨k, hk⟩ := hx
      rw [ulp_congr hge hpow] at hk
      rw [hk, high, Nat.mul_comm]
      apply Nat.mul_le_mul_left
      apply Nat.div_lt_of_lt_mul
      rw [← hk]
      exact hlt
    · exact Nat.le_trans (high_le_pow hp n) (Nat.le_of_not_lt hpow)

/-! Rounding to the nearest one. -/

theorem nearest_cases (p n : Nat) :
    nearest p n = low p n ∧ 2 * (n % ulp p n) ≤ ulp p n ∨
      nearest p n = high p n ∧ ulp p n ≤ 2 * (n % ulp p n) := by
  rw [nearest]
  split
  case isTrue h => exact Or.inl ⟨rfl, by omega⟩
  case isFalse h => exact Or.inr ⟨rfl, by omega⟩

theorem representable_nearest (hp : 0 < p) (n : Nat) : Representable p (nearest p n) := by
  rcases nearest_cases p n with ⟨heq, -⟩ | ⟨heq, -⟩
  · rw [heq]
    exact representable_low hp n
  · rw [heq]
    exact representable_high hp n

/-- Nothing up to `n` that can be kept is nearer to it. -/
theorem nearest_add_le (hp : 0 < p) (hx : Representable p x) (hle : x ≤ n) :
    nearest p n + x ≤ 2 * n := by
  have hlow := le_low hp hx hle
  have hsplit := low_add p n
  rcases nearest_cases p n with ⟨heq, -⟩ | ⟨heq, hrem⟩
  · rw [heq]
    omega
  · rw [heq, high_eq]
    omega

/-- Nor anything from `n` on. -/
theorem le_nearest_add (hp : 0 < p) (hx : Representable p x) (hle : n ≤ x) :
    2 * n ≤ nearest p n + x := by
  have hsplit := low_add p n
  rcases Nat.lt_or_eq_of_le hle with hlt | rfl
  · have hhigh := high_le hp hx hlt
    rw [high_eq] at hhigh
    rcases nearest_cases p n with ⟨heq, hrem⟩ | ⟨heq, -⟩
    · rw [heq]
      omega
    · have := lt_high p n
      rw [heq]
      omega
  · have hlow := le_low hp hx (Nat.le_refl n)
    rcases nearest_cases p n with ⟨heq, -⟩ | ⟨heq, -⟩
    · rw [heq]
      omega
    · rw [heq, high_eq]
      omega

theorem le_nearest (hp : 0 < p) (hx : Representable p x) (hle : x ≤ n) : x ≤ nearest p n := by
  have hlow := le_low hp hx hle
  rcases nearest_cases p n with ⟨heq, -⟩ | ⟨heq, -⟩
  · rw [heq]
    exact hlow
  · rw [heq, high_eq]
    omega

theorem nearest_le (hp : 0 < p) (hx : Representable p x) (hle : n ≤ x) : nearest p n ≤ x := by
  rcases Nat.lt_or_eq_of_le hle with hlt | rfl
  · have hhigh := high_le hp hx hlt
    have hlow := low_le p n
    rcases nearest_cases p n with ⟨heq, -⟩ | ⟨heq, -⟩
    · rw [heq]
      omega
    · rw [heq]
      exact hhigh
  · have := nearest_add_le hp hx (Nat.le_refl n)
    omega

theorem nearest_eq (hp : 0 < p) (hn : Representable p n) : nearest p n = n :=
  Nat.le_antisymm (nearest_le hp hn (Nat.le_refl n)) (le_nearest hp hn (Nat.le_refl n))

/-- The number above an even one is odd, and the other way round. -/
theorem even_high (hp : 1 < p) (hulp : 1 < ulp p n) :
    significand p (high p n) % 2 = 0 ↔ significand p n % 2 = 1 := by
  have hp' : 0 < p := Nat.lt_of_succ_lt hp
  have hn : n ≠ 0 := by
    intro hzero
    rw [hzero, ulp, Nat.log2_zero, show 0 + 1 - p = 0 by omega] at hulp
    exact absurd hulp (by decide)
  rcases Nat.lt_or_eq_of_le (high_le_pow hp' n) with hlt | heq
  · have hge : 1 <<< n.log2 ≤ high p n := by
      have := pow_le_low hp' hn
      have := low_le p n
      have := lt_high p n
      omega
    have hsig : significand p (high p n) = significand p n + 1 := by
      rw [significand, ulp_congr hge hlt, high, Nat.mul_div_cancel _ (ulp_pos p n)]
    rw [hsig]
    omega
  · -- the power of two above: its unit is twice as large
    have hbits : p ≤ n.log2 := by
      by_contra hlt
      rw [ulp, show n.log2 + 1 - p = 0 by omega] at hulp
      exact absurd hulp (by decide)
    have hupper : significand p (high p n) = 2 ^ (p - 1) := by
      rw [significand, heq, ulp, Nat.one_shiftLeft, Nat.one_shiftLeft, Nat.log2_two_pow,
        Nat.pow_div (by omega) (by decide)]
      congr 1
      omega
    have hlower : significand p n + 1 = 2 ^ p := by
      have hmul : (significand p n + 1) * ulp p n = 1 <<< (n.log2 + 1) := heq
      rw [Nat.eq_div_of_mul_eq_left (Nat.ne_of_gt (ulp_pos p n)) hmul, ulp, Nat.one_shiftLeft,
        Nat.one_shiftLeft, Nat.pow_div (by omega) (by decide)]
      congr 1
      omega
    have hsucc : 2 ^ p = 2 ^ (p - 1) * 2 := by
      rw [← Nat.pow_succ]
      congr 1
      omega
    have heven : 2 ^ (p - 1) % 2 = 0 := by
      rw [show p - 1 = p - 2 + 1 by omega, Nat.pow_succ]
      exact Nat.mul_mod_left _ _
    rw [hupper, heven]
    omega

/-- Half-way between two numbers: the upper one is taken exactly if it is even. -/
theorem nearest_half_way (hp : 1 < p) {s r : Nat} (hs : Representable p s)
    (hr : Representable p r) (hsr : s < r) (hn : 2 * n = s + r)
    (hends : nearest p n = s ∨ nearest p n = r) :
    nearest p n = r ↔ significand p r % 2 = 0 := by
  have hsplit := low_add p n
  have hlow : s ≤ low p n := le_low (Nat.lt_of_succ_lt hp) hs (by omega)
  have hhigh : high p n ≤ r := high_le (Nat.lt_of_succ_lt hp) hr (by omega)
  have hhigh_eq := high_eq p n
  have hlt := lt_high p n
  rw [nearest] at hends ⊢
  split at hends
  case isTrue hdown =>
    rw [if_pos hdown]
    have hs_eq : low p n = s := by omega
    have hr_eq : r = high p n := by omega
    have hulp := ulp_pos p n
    have hodd := even_high (n := n) hp (by omega)
    rw [hr_eq, hodd]
    omega
  case isFalse hup =>
    rw [if_neg hup]
    have hr_eq : r = high p n := by omega
    have hulp := ulp_pos p n
    have hodd := even_high (n := n) hp (by omega)
    rw [hr_eq, hodd]
    omega

/-- From `p` bits on everything that can be kept is even. -/
theorem Representable.even (hn : Representable p n) (hge : 1 <<< p ≤ n) : 2 ∣ n := by
  have hpos : n ≠ 0 := by
    have := Nat.two_pow_pos p
    rw [Nat.one_shiftLeft] at hge
    omega
  have hbits : p ≤ n.log2 := by
    rw [Nat.le_log2 hpos, ← Nat.one_shiftLeft]
    exact hge
  refine Nat.dvd_trans ?_ hn
  rw [ulp, Nat.one_shiftLeft, show n.log2 + 1 - p = n.log2 - p + 1 by omega, Nat.pow_succ]
  exact Nat.dvd_mul_left _ _

/-- Up to `p` bits everything can be kept. -/
theorem representable_of_le (hp : 0 < p) (hle : n ≤ 1 <<< p) : Representable p n := by
  rcases Nat.lt_or_eq_of_le hle with hlt | rfl
  · have hone : ulp p n = 1 := by
      have hbits : n.log2 + 1 - p = 0 := by
        by_cases hn : n = 0
        · rw [hn, Nat.log2_zero]
          omega
        · rw [Nat.one_shiftLeft, ← Nat.log2_lt hn] at hlt
          omega
      rw [ulp, hbits]
      rfl
    rw [Representable, hone]
    exact Nat.one_dvd n
  · exact representable_pow hp p

/-! Halving an interval, the middle being rounded. -/

/-- With a number that can be kept inside, the middle stays below the upper end. -/
theorem nearest_mid_lt (hp : 0 < p) {s r t : Nat} (hr : Representable p r) (hsr : s < r)
    (hrt : r < t) : nearest p ((s + t) / 2) < t := by
  by_cases hmid : (s + t) / 2 ≤ r
  · exact Nat.lt_of_le_of_lt (nearest_le hp hr hmid) hrt
  · have := nearest_add_le hp hr (Nat.le_of_not_le hmid)
    omega

/-- It stays above the lower end, unless the number is the last one inside and its odd
    significand lets the middle fall down. -/
theorem lt_nearest_mid (hp : 1 < p) {s r t : Nat} (hs : Representable p s)
    (hr : Representable p r) (hsr : s < r) (hrt : r < t)
    (hlast : r + 1 = t → r ≤ 1 <<< p ∨ significand p r % 2 = 0) :
    s < nearest p ((s + t) / 2) := by
  have hp' : 0 < p := Nat.lt_of_succ_lt hp
  by_cases hmid : r ≤ (s + t) / 2
  · exact Nat.lt_of_lt_of_le hsr (le_nearest hp' hr hmid)
  · have hge := le_nearest hp' hs (show s ≤ (s + t) / 2 by omega)
    have hup := le_nearest_add hp' hr (Nat.le_of_not_le hmid)
    by_contra hle
    have hdown : nearest p ((s + t) / 2) = s := by omega
    have hhalf : 2 * ((s + t) / 2) = s + r := by omega
    rcases hlast (by omega) with hsmall | heven
    · have hkept := nearest_eq hp' (representable_of_le hp' (show (s + t) / 2 ≤ 1 <<< p by omega))
      omega
    · have hr_eq := (nearest_half_way hp hs hr hsr hhalf (Or.inl hdown)).mpr heven
      omega

/-- The last number inside is met only if its significand is even. -/
theorem even_of_nearest_mid (hp : 1 < p) {s r : Nat} (hs : Representable p s)
    (hr : Representable p r) (hsr : s < r) (hbig : 1 <<< p < r)
    (hmid : nearest p ((s + (r + 1)) / 2) = r) : significand p r % 2 = 0 := by
  have hp' : 0 < p := Nat.lt_of_succ_lt hp
  have hreven := hr.even (Nat.le_of_lt hbig)
  have hseven : 1 <<< p ≤ s → 2 ∣ s := hs.even
  have hnear := nearest_add_le hp' hs (show s ≤ (s + (r + 1)) / 2 by omega)
  rw [hmid] at hnear
  by_cases hhalf : 2 * ((s + (r + 1)) / 2) = s + r
  · exact (nearest_half_way hp hs hr hsr hhalf (Or.inr hmid)).mp hmid
  · -- then `s` is odd, so that it has fewer bits and 2 ^ p lies between
    have hpow : Representable p (1 <<< p) := representable_pow hp' p
    have hge : 1 <<< p ≤ (s + (r + 1)) / 2 := by
      by_contra hlt
      have := nearest_le hp' hpow (Nat.le_of_not_le hlt)
      omega
    have hnear' := nearest_add_le hp' hpow hge
    rw [hmid] at hnear'
    have hhalf' : 2 * ((s + (r + 1)) / 2) = 1 <<< p + r := by omega
    exact (nearest_half_way hp hpow hr hbig hhalf' (Or.inr hmid)).mp hmid

end

end RubbishStore.Lib.Rounding
