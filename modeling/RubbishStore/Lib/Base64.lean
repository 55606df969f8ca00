import RubbishStore.Lib.Text

/- Base64. Three bytes are four digits of six bits; a last group of one or two bytes
   is two or three digits and fills up with `=`. The decoder reads digits and skips
   what it does not know; a `=` where no group can end makes it fail. What is encoded
   is decoded (`decode_encode`). -/
namespace RubbishStore.Lib.Base64

/-- `=` -/
def padding : UInt8 := 61

/-- `A`–`Z`, `a`–`z`, `0`–`9`, `+`, `/` -/
def letter (n : Nat) : UInt8 :=
  if n < 26 then (65 + n).toUInt8
  else if n < 52 then (71 + n).toUInt8
  else if n < 62 then (n - 4).toUInt8
  else if n = 62 then 43
  else 47

def value (b : UInt8) : Option Nat :=
  let n := b.toNat
  if 65 ≤ n ∧ n ≤ 90 then some (n - 65)
  else if 97 ≤ n ∧ n ≤ 122 then some (n - 71)
  else if 48 ≤ n ∧ n ≤ 57 then some (n + 4)
  else if n = 43 then some 62
  else if n = 47 then some 63
  else none

/-- The digits of a text, six bits each. -/
def digits : Octets → List Nat
  | [] => []
  | [a] => [a.toNat / 4, 16 * (a.toNat % 4)]
  | [a, b] => [a.toNat / 4, 16 * (a.toNat % 4) + b.toNat / 16, 4 * (b.toNat % 16)]
  | a :: b :: c :: s =>
    a.toNat / 4 :: (16 * (a.toNat % 4) + b.toNat / 16) ::
      (4 * (b.toNat % 16) + c.toNat / 64) :: c.toNat % 64 :: digits s

def encode : Octets → Octets
  | [] => []
  | [a] => (digits [a]).map letter ++ [padding, padding]
  | [a, b] => (digits [a, b]).map letter ++ [padding]
  | a :: b :: c :: s => (digits [a, b, c]).map letter ++ encode s

/-- The whole bytes that the digits hold. -/
def bytes : List Nat → Octets
  | a :: b :: c :: d :: ds =>
    (4 * a + b / 16).toUInt8 :: (16 * (b % 16) + c / 4).toUInt8 :: (64 * (c % 4) + d).toUInt8 :: bytes ds
  | [a, b, c] => [(4 * a + b / 16).toUInt8, (16 * (b % 16) + c / 4).toUInt8]
  | [a, b] => [(4 * a + b / 16).toUInt8]
  | _ => []

/-- The digits behind those already read, up to the end or a zero byte. -/
def readDigits (read : List Nat) : Octets → Option (List Nat)
  | [] => some read
  | b :: s =>
    if b = 0 then some read
    else if b = padding then
      if read.length % 4 = 1 ∧ s.head? ≠ some padding then none else readDigits read s
    else
      match value b with
      | some n => readDigits (read ++ [n]) s
      | none => readDigits read s

def decode (s : Octets) : Option Octets := (readDigits [] s).map bytes

theorem letter_value : ∀ i : Fin 64,
    value (letter i) = some i.val ∧ letter i ≠ 0 ∧ letter i ≠ padding := by
  decide

theorem digits_lt (s : Octets) : ∀ n ∈ digits s, n < 64 := by
  fun_induction digits s with
  | case1 => simp
  | case2 a =>
    have ha := a.toNat_lt
    simp only [List.forall_mem_cons]
    refine ⟨?_, ?_, List.forall_mem_nil _⟩ <;> omega
  | case3 a b =>
    have ha := a.toNat_lt
    have hb := b.toNat_lt
    simp only [List.forall_mem_cons]
    refine ⟨?_, ?_, ?_, List.forall_mem_nil _⟩ <;> omega
  | case4 a b c s ih =>
    have ha := a.toNat_lt
    have hb := b.toNat_lt
    have hc := c.toNat_lt
    simp only [List.forall_mem_cons]
    refine ⟨?_, ?_, ?_, ?_, ih⟩ <;> omega

theorem readDigits_letters (read : List Nat) {ds : List Nat} (h : ∀ n ∈ ds, n < 64) (s : Octets) :
    readDigits read (ds.map letter ++ s) = readDigits (read ++ ds) s := by
  induction ds generalizing read with
  | nil => rw [List.map_nil, List.nil_append, List.append_nil]
  | cons n ds ih =>
    obtain ⟨hn, hds⟩ := List.forall_mem_cons.mp h
    obtain ⟨hvalue, hzero, hpadding⟩ := letter_value ⟨n, hn⟩
    simp only at hvalue hzero hpadding
    rw [List.map_cons, List.cons_append, readDigits, if_neg hzero, if_neg hpadding, hvalue]
    simpa using ih (read ++ [n]) hds

/-- An encoded text's digits behind complete groups. -/
theorem readDigits_encode (read : List Nat) (hread : read.length % 4 = 0) (s : Octets) :
    readDigits read (encode s) = some (read ++ digits s) := by
  have hpad : padding ≠ 0 := by decide
  fun_induction encode s generalizing read with
  | case1 => simp [readDigits, digits]
  | case2 a =>
    rw [readDigits_letters read (digits_lt [a])]
    have hlength : (read ++ digits [a]).length % 4 ≠ 1 := by
      simp only [digits, List.length_append, List.length_cons, List.length_nil]
      omega
    generalize read ++ digits [a] = ds at hlength ⊢
    simp [readDigits, hpad, hlength]
  | case3 a b =>
    rw [readDigits_letters read (digits_lt [a, b])]
    have hlength : (read ++ digits [a, b]).length % 4 ≠ 1 := by
      simp only [digits, List.length_append, List.length_cons, List.length_nil]
      omega
    generalize read ++ digits [a, b] = ds at hlength ⊢
    simp [readDigits, hpad, hlength]
  | case4 a b c s ih =>
    rw [readDigits_letters read (digits_lt [a, b, c]), ih]
    · simp [digits]
    · simp only [digits, List.length_append, List.length_cons, List.length_nil]
      omega

theorem toUInt8_of_eq {n : Nat} {b : UInt8} (h : n = b.toNat) : n.toUInt8 = b := by
  rw [h]
  exact UInt8.ofNat_toNat

theorem bytes_digits (s : Octets) : bytes (digits s) = s := by
  fun_induction digits s with
  | case1 => rfl
  | case2 a =>
    have ha := a.toNat_lt
    rw [bytes, toUInt8_of_eq (b := a) (by omega)]
  | case3 a b =>
    have ha := a.toNat_lt
    have hb := b.toNat_lt
    rw [bytes, toUInt8_of_eq (b := a) (by omega), toUInt8_of_eq (b := b) (by omega)]
  | case4 a b c s ih =>
    have ha := a.toNat_lt
    have hb := b.toNat_lt
    have hc := c.toNat_lt
    rw [bytes, ih, toUInt8_of_eq (b := a) (by omega), toUInt8_of_eq (b := b) (by omega),
      toUInt8_of_eq (b := c) (by omega)]

theorem decode_encode (s : Octets) : decode (encode s) = some s := by
  rw [decode, readDigits_encode [] rfl, List.nil_append, Option.map_some, bytes_digits]

end RubbishStore.Lib.Base64
