import Mathlib.Algebra.GroupWithZero.Nat
import Mathlib.Data.List.Basic
import Mathlib.Data.List.TakeWhile

/- Whole numbers as PHP computes with them on a 64-bit machine, and their texts. A
   product that does not fit an integer is a float: the factors are rounded to 53
   significant bits, and so is their product. What a float looks like as a text,
   and how a text with a point or an exponent is read, are left to parameters (they
   depend on the configuration and the version). -/
namespace RubbishStore.Lib.PhpNumber

/-- `PHP_INT_MIN` and `PHP_INT_MAX` are the bounds. -/
abbrev PhpInt : Type := {i : Int // -9223372036854775808 ≤ i ∧ i ≤ 9223372036854775807}

/-- The integer, or the nearest bound. -/
def saturate (i : Int) : PhpInt :=
  if h : i < -9223372036854775808 then ⟨-9223372036854775808, by decide⟩
  else if h' : 9223372036854775807 < i then ⟨9223372036854775807, by decide⟩
  else ⟨i, by omega, by omega⟩

theorem saturate_val (n : PhpInt) : saturate n.1 = n := by
  have hn := n.2
  rw [saturate, dif_neg (by omega), dif_neg (by omega)]

/-! Texts of integers. -/

/-- `(string) $i` -/
def text (i : Int) : List Char :=
  if i < 0 then '-' :: Nat.toDigits 10 i.natAbs else Nat.toDigits 10 i.natAbs

/-- A sign in front, and the rest. -/
def unsigned : List Char → Bool × List Char
  | '-' :: s => (true, s)
  | '+' :: s => (false, s)
  | s => (false, s)

/-- Behind the digits the text goes on as a decimal fraction or with an exponent. -/
def goesOn : List Char → Bool
  | c :: _ => c = '.' || c = 'e' || c = 'E'
  | [] => false

/-- What a number may have in front of it: a blank, or one of the codes 9 to 13. -/
def isSpace (c : Char) : Bool := c.toNat = 32 || (9 ≤ c.toNat && c.toNat ≤ 13)

/-- `intval($s)`: the number in front, with `decimal` for the texts that do not end
    with their digits. -/
def intval (decimal : List Char → PhpInt) (s : List Char) : PhpInt :=
  let number := unsigned (s.dropWhile isSpace)
  let digits := number.2.takeWhile fun c => c.isDigit
  if goesOn (number.2.dropWhile fun c => c.isDigit) then decimal s
  else
    let value := Nat.ofDigitChars 10 digits 0
    saturate (if number.1 then -value else value)

theorem isDigit_of_mem_toDigits {n : Nat} {c : Char} (h : c ∈ Nat.toDigits 10 n) : c.isDigit :=
  Nat.isDigit_of_mem_toDigits (by decide) (by decide) h

theorem toNat_of_isDigit {c : Char} (h : c.isDigit) : 48 ≤ c.toNat ∧ c.toNat ≤ 57 := by
  simp only [Char.isDigit, Bool.and_eq_true, decide_eq_true_eq] at h
  exact h

theorem unsigned_of_isDigit {c : Char} (h : c.isDigit) (s : List Char) :
    unsigned ((c :: s).dropWhile isSpace) = (false, c :: s) := by
  have hc := toNat_of_isDigit h
  have hspace : isSpace c = false := by
    simp only [isSpace, Bool.or_eq_false_iff, Bool.and_eq_false_iff, decide_eq_false_iff_not]
    omega
  have hminus : c ≠ '-' := by
    rintro rfl
    exact absurd h (by decide)
  have hplus : c ≠ '+' := by
    rintro rfl
    exact absurd h (by decide)
  rw [List.dropWhile_cons_of_neg (by simp [hspace]), unsigned]
  · simpa using hminus
  · simpa using hplus

theorem unsigned_text (i : Int) :
    unsigned ((text i).dropWhile isSpace) = (decide (i < 0), Nat.toDigits 10 i.natAbs) := by
  by_cases hi : i < 0
  · rw [text, if_pos hi, List.dropWhile_cons_of_neg (by decide), unsigned, decide_eq_true hi]
  · obtain ⟨c, s, hdigits⟩ :=
      List.exists_cons_of_ne_nil (Nat.toDigits_ne_nil (n := i.natAbs) (b := 10))
    have hc : c.isDigit := isDigit_of_mem_toDigits (n := i.natAbs) (by simp [hdigits])
    rw [text, if_neg hi, hdigits, unsigned_of_isDigit hc, decide_eq_false hi]

/-- An integer is read back from its text. -/
theorem intval_text (decimal : List Char → PhpInt) (n : PhpInt) :
    intval decimal (text n.1) = n := by
  have hall : ∀ c ∈ Nat.toDigits 10 n.1.natAbs, c.isDigit := fun c h => isDigit_of_mem_toDigits h
  have hvalue : (if decide (n.1 < 0) then -(n.1.natAbs : Int) else n.1.natAbs) = n.1 := by
    simp only [decide_eq_true_eq]
    omega
  rw [intval, unsigned_text]
  dsimp only
  rw [List.dropWhile_eq_nil_iff.mpr hall, List.takeWhile_eq_self_iff.mpr hall,
    Nat.ofDigitChars_ten_toDigits, hvalue, saturate_val]
  exact if_neg (by decide)

theorem text_ne_nil (i : Int) : text i ≠ [] := by
  rw [text]
  split <;> simp

theorem text_eq_zero_iff (i : Int) : text i = ['0'] ↔ i = 0 := by
  refine ⟨fun h => ?_, fun h => by rw [h]; rfl⟩
  rw [text] at h
  split at h
  · simp at h
  · have hvalue := congrArg (fun s => Nat.ofDigitChars 10 s 0) h
    simp only [Nat.ofDigitChars_ten_toDigits] at hvalue
    exact Int.natAbs_eq_zero.mp hvalue

/-! Products. -/

/-- The nearest whole number of 53 significant bits, a tie going to the even one. -/
def round53 (m : Nat) : Nat :=
  if m < 2 ^ 53 then m
  else
    let k := Nat.log2 m - 52
    let q := m / 2 ^ k
    let r := m % 2 ^ k
    (if 2 ^ k < 2 * r ∨ (2 ^ k = 2 * r ∧ q % 2 = 1) then q + 1 else q) * 2 ^ k

/-- A number is an integer, or a float, here a whole one given by its value. -/
inductive Number where
  | int (n : PhpInt)
  | float (value : Int)
  deriving DecidableEq

def Number.value : Number → Int
  | .int n => n.1
  | .float v => v

/-- `(string) $x`, with `floatText` for a float. -/
def Number.text (floatText : Int → List Char) : Number → List Char
  | .int n => PhpNumber.text n.1
  | .float v => floatText v

/-- `$a * $b` -/
def mul (a b : PhpInt) : Number :=
  if h : -9223372036854775808 ≤ a.1 * b.1 ∧ a.1 * b.1 ≤ 9223372036854775807 then .int ⟨a.1 * b.1, h⟩
  else
    let magnitude : Int := round53 (round53 a.1.natAbs * round53 b.1.natAbs)
    .float (if a.1 * b.1 < 0 then -magnitude else magnitude)

/-- Rounding does not go below a power of two. -/
theorem le_round53 {m j : Nat} (h : 2 ^ j ≤ m) : 2 ^ j ≤ round53 m := by
  rw [round53]
  split
  · exact h
  · next hbig =>
    have hm : m ≠ 0 := by omega
    have hlog : 53 ≤ m.log2 := (Nat.le_log2 hm).mpr (by omega)
    have hj : j ≤ m.log2 := (Nat.le_log2 hm).mpr h
    let k := m.log2 - 52
    have hpow : 2 ^ m.log2 = 2 ^ 52 * 2 ^ k := by
      rw [← Nat.pow_add]
      congr 1
      omega
    have hq : 2 ^ 52 ≤ m / 2 ^ k := by
      rw [Nat.le_div_iff_mul_le (Nat.pow_pos (by decide)), ← hpow]
      exact Nat.log2_self_le hm
    have hround : 2 ^ m.log2 ≤
        (if 2 ^ k < 2 * (m % 2 ^ k) ∨ (2 ^ k = 2 * (m % 2 ^ k) ∧ m / 2 ^ k % 2 = 1)
          then m / 2 ^ k + 1 else m / 2 ^ k) * 2 ^ k := by
      rw [hpow]
      apply Nat.mul_le_mul_right
      split <;> omega
    exact Nat.le_trans (Nat.pow_le_pow_right (by decide) hj) hround

theorem mul_self_int (n : PhpInt) (h : n.1 * n.1 ≤ 9223372036854775807) :
    ∃ m : PhpInt, m.1 = n.1 * n.1 ∧ mul n n = .int m := by
  have habs : ((n.1.natAbs * n.1.natAbs : Nat) : Int) = n.1 * n.1 := Int.natAbs_mul_self
  exact ⟨⟨n.1 * n.1, by omega, h⟩, rfl, dif_pos ⟨by omega, h⟩⟩

/-- A square that does not fit an integer is a float beyond all integers. -/
theorem mul_self_float (n : PhpInt) (h : 9223372036854775807 < n.1 * n.1) :
    9223372036854775807 < (mul n n).value := by
  have habs : ((n.1.natAbs * n.1.natAbs : Nat) : Int) = n.1 * n.1 := Int.natAbs_mul_self
  rw [mul, dif_neg (by omega), Number.value, if_neg (by omega)]
  have hround : n.1.natAbs < 2 ^ 53 ∨ 2 ^ 53 ≤ n.1.natAbs := Nat.lt_or_ge _ _
  have hsquare : 2 ^ 63 ≤ round53 n.1.natAbs * round53 n.1.natAbs := by
    obtain hsmall | hlarge := hround
    · rw [round53, if_pos hsmall]
      omega
    · have hle := le_round53 hlarge
      calc 2 ^ 63 ≤ 2 ^ 53 * 2 ^ 53 := by decide
        _ ≤ round53 n.1.natAbs * round53 n.1.natAbs := Nat.mul_le_mul hle hle
  have hvalue := le_round53 hsquare
  omega

end RubbishStore.Lib.PhpNumber
