import RubbishStore.Lib.PhpNumber
import RubbishStore.Lib.Text
import Mathlib.Data.List.DropRight

/- Whole numbers from zero on as PHP computes with them on a 64-bit machine, floats
   included. A sum or a product that does not fit an integer is a float, and so is
   everything that a float takes part in. A float has 53 significant bits, is infinite
   from 2^1024 on, and no number where an infinite one is multiplied by zero. As a text
   it has the digits of `precision`, whose default is taken here, and an exponent if
   they do not do. Rounding never takes a value down past a small number
   (`lt_round53`), so a float that is large stays so (`Double.gt_add`, `Double.gt_mul`). -/
namespace RubbishStore.Lib.PhpFloat
open PhpNumber

/-- Integers from zero to `PHP_INT_MAX`. -/
abbrev WholeInt : Type := {n : Nat // n ≤ 9223372036854775807}

inductive Double where
  | finite (m : Nat)
  | infinite
  | nan
  deriving DecidableEq

inductive Number where
  | int (n : WholeInt)
  | double (x : Double)
  deriving DecidableEq

namespace Double

/-- No finite float is as large. -/
@[irreducible] def limit : Nat := 2 ^ 1024

/-- The float nearest to a number. -/
def round (m : Nat) : Double := if round53 m < limit then .finite (round53 m) else .infinite

def add : Double → Double → Double
  | .nan, _ => .nan
  | _, .nan => .nan
  | .infinite, _ => .infinite
  | _, .infinite => .infinite
  | .finite a, .finite b => round (a + b)

def mul : Double → Double → Double
  | .nan, _ => .nan
  | _, .nan => .nan
  | .infinite, .finite 0 => .nan
  | .finite 0, .infinite => .nan
  | .infinite, _ => .infinite
  | _, .infinite => .infinite
  | .finite a, .finite b => round (a * b)

/-- `$x > $n` -/
def gt : Double → Nat → Bool
  | .finite m, n => n < m
  | .infinite, _ => true
  | .nan, _ => false

/-- The ini setting `precision`. -/
def precision : Nat := 14

/-- `1.0E+25`: the significant digits, less the zeros at their end, and the exponent. -/
def scientific (m : Nat) : Text :=
  let places := (Nat.toDigits 10 m).length - precision
  let unit := 10 ^ places
  let q := m / unit
  let r := m % unit
  let digits := Nat.toDigits 10 (if unit < 2 * r ∨ (unit = 2 * r ∧ q % 2 = 1) then q + 1 else q)
  match digits with
  | [] => []
  | d :: more =>
    let fraction := more.rdropWhile (· = '0')
    d :: '.' :: (if fraction = [] then ['0'] else fraction) ++
      'E' :: '+' :: Nat.toDigits 10 (places + (digits.length - 1))

/-- `(string) $x` -/
def text : Double → Text
  | .finite m => if (Nat.toDigits 10 m).length ≤ precision then Nat.toDigits 10 m else scientific m
  | .infinite => chars "INF"
  | .nan => chars "NAN"

end Double

namespace Number

/-- `(float) $x` -/
def toDouble : Number → Double
  | .int n => .finite (round53 n)
  | .double x => x

/-- `$a + $b` -/
def add : Number → Number → Number
  | .int a, .int b =>
    if h : a.1 + b.1 ≤ 9223372036854775807 then .int ⟨a.1 + b.1, h⟩
    else .double (.add (.finite (round53 a)) (.finite (round53 b)))
  | a, b => .double (.add a.toDouble b.toDouble)

/-- `$a * $b` -/
def mul : Number → Number → Number
  | .int a, .int b =>
    if h : a.1 * b.1 ≤ 9223372036854775807 then .int ⟨a.1 * b.1, h⟩
    else .double (.mul (.finite (round53 a)) (.finite (round53 b)))
  | a, b => .double (.mul a.toDouble b.toDouble)

def gt : Number → Nat → Bool
  | .int a, n => n < a.1
  | .double x, n => x.gt n

def text : Number → Text
  | .int a => Nat.toDigits 10 a
  | .double x => x.text

end Number

/-! Large floats. -/

theorem lt_round53 {n m : Nat} (hn : n < 2 ^ 53) (h : n < m) : n < round53 m := by
  by_cases hm : m < 2 ^ 53
  · rw [round53, if_pos hm]
    exact h
  · exact Nat.lt_of_lt_of_le hn (le_round53 (Nat.le_of_not_lt hm))

theorem round53_of_lt {m : Nat} (h : m < 2 ^ 53) : round53 m = m := by rw [round53, if_pos h]

namespace Double

theorem gt_round {n m : Nat} (hn : n < 2 ^ 53) (h : n < m) : (round m).gt n = true := by
  rw [round]
  split
  · exact decide_eq_true (lt_round53 hn h)
  · rfl

theorem round_of_lt {m : Nat} (h : m < 2 ^ 53) : round m = .finite m := by
  have hlimit : 2 ^ 53 ≤ limit := by decide +kernel
  rw [round, round53_of_lt h, if_pos (Nat.lt_of_lt_of_le h hlimit)]

theorem gt_add {n : Nat} (hn : n < 2 ^ 53) {x y : Double} (hx : x.gt n = true) (hy : y ≠ .nan) :
    (x.add y).gt n = true := by
  cases x with
  | nan => cases hx
  | infinite =>
    cases y with
    | nan => exact absurd rfl hy
    | _ => rfl
  | finite a =>
    cases y with
    | nan => exact absurd rfl hy
    | infinite => rfl
    | finite b => exact gt_round hn (Nat.lt_add_right b (of_decide_eq_true hx))

theorem add_comm (x y : Double) : x.add y = y.add x := by
  cases x with
  | finite a =>
    cases y with
    | finite b => exact congrArg round (Nat.add_comm a b)
    | _ => rfl
  | _ => cases y <;> rfl

theorem add_nan (x : Double) : x.add .nan = .nan := by
  cases x <;> rfl

theorem gt_mul {n : Nat} (hn : n < 2 ^ 53) {x : Double} {m : Nat} (hx : x.gt n = true) (hm : 0 < m) :
    (x.mul (.finite m)).gt n = true := by
  obtain ⟨m, rfl⟩ := Nat.exists_eq_succ_of_ne_zero (Nat.ne_of_gt hm)
  cases x with
  | nan => cases hx
  | infinite => rfl
  | finite a => exact gt_round hn (Nat.lt_of_lt_of_le (of_decide_eq_true hx) (Nat.le_mul_of_pos_right a hm))

end Double

/-! Their texts. -/

theorem isDigit_toDigits (m : Nat) : ∀ c ∈ Nat.toDigits 10 m, c.isDigit = true :=
  fun _ hc => isDigit_of_mem_toDigits hc

theorem length_toDigits_le_iff {m n : Nat} (hn : 0 < n) : (Nat.toDigits 10 m).length ≤ n ↔ m < 10 ^ n :=
  Nat.length_toDigits_le_iff (by decide) hn

theorem le_length_toDigits_iff {m n : Nat} (hm : 0 < m) (hn : 0 < n) :
    n ≤ (Nat.toDigits 10 m).length ↔ 10 ^ (n - 1) ≤ m := by
  obtain ⟨n, rfl⟩ := Nat.exists_eq_succ_of_ne_zero (Nat.ne_of_gt hn)
  cases n with
  | zero => exact iff_of_true Nat.length_toDigits_pos hm
  | succ n =>
    have hle : (Nat.toDigits 10 m).length ≤ n + 1 ↔ m < 10 ^ (n + 1) := length_toDigits_le_iff (Nat.succ_pos n)
    rw [Nat.succ_sub_one]
    omega

/-- The second character is the point. -/
theorem scientific_point (m : Nat) : ∃ d more, Double.scientific m = d :: '.' :: more := by
  rw [Double.scientific]
  split
  · next hnil => exact absurd hnil Nat.toDigits_ne_nil
  · next d more _ => exact ⟨d, _, rfl⟩

theorem text_small {m : Nat} (h : m < 10 ^ Double.precision) : (Double.finite m).text = Nat.toDigits 10 m := by
  rw [Double.text, if_pos ((length_toDigits_le_iff (by decide)).mpr h)]

/-- A text of digits is no longer than the precision. -/
theorem Double.text_take {x : Double} {n : Nat} (hn : precision < n) :
    (x.text.take n).length < n ∨ ∃ c ∈ x.text.take n, c.isDigit = false := by
  have htwo : ∃ k, n = k + 2 := ⟨n - 2, by rw [precision] at hn; omega⟩
  obtain ⟨k, rfl⟩ := htwo
  cases x with
  | finite m =>
    rw [text]
    split
    · next hshort =>
      left
      exact Nat.lt_of_le_of_lt (Nat.le_trans (List.length_take_le' _ _) hshort) hn
    · obtain ⟨d, more, hpoint⟩ := scientific_point m
      right
      rw [hpoint]
      exact ⟨'.', List.mem_cons_of_mem d List.mem_cons_self, rfl⟩
  | infinite => exact .inr ⟨'I', by rw [text, chars]; exact List.mem_cons_self, by decide⟩
  | nan => exact .inr ⟨'N', by rw [text, chars]; exact List.mem_cons_self, by decide⟩

end RubbishStore.Lib.PhpFloat
