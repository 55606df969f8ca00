import RubbishStore.Lib.Text
import Mathlib.Data.List.DropRight
import Mathlib.Data.List.TakeWhile

/- Strings as PHP compares, trims and cuts them. For the first two a string is given by
   its codes, so that bytes and characters share one definition. Two strings that both
   read as numbers are compared as numbers; how two numbers compare is a parameter, the
   rest is here. -/
namespace RubbishStore.Lib.PhpText

def isDigit (c : Nat) : Bool := 48 ≤ c && c ≤ 57

def isHexDigit (c : Nat) : Bool := isDigit c || (65 ≤ c && c ≤ 70) || (97 ≤ c && c ≤ 102)

/-- A plus or minus sign at the front does not count. -/
def unsigned : List Nat → List Nat
  | [] => []
  | c :: s => if c = 43 ∨ c = 45 then s else c :: s

/-- `e`, a sign perhaps, and digits up to the end. -/
def isExponent : List Nat → Bool
  | [] => false
  | c :: s =>
    let power := unsigned s
    (c = 101 ∨ c = 69) && power ≠ [] && power.all isDigit

/-- Digits with a point somewhere, or without, and an exponent perhaps. -/
def isDecimal (s : List Nat) : Bool :=
  let whole := s.takeWhile isDigit
  let rest := s.dropWhile isDigit
  match rest with
  | 46 :: rest =>
    let fraction := rest.takeWhile isDigit
    let rest := rest.dropWhile isDigit
    (whole ≠ [] ∨ fraction ≠ []) && (rest = [] || isExponent rest)
  | rest => whole ≠ [] && (rest = [] || isExponent rest)

/-- `0x` and hexadecimal digits. -/
def isHexadecimal : List Nat → Bool
  | 48 :: x :: s => (x = 120 ∨ x = 88) && s ≠ [] && s.all isHexDigit
  | _ => false

/-- A string that reads as a number: white space, a sign, and a decimal or hexadecimal
    number up to the end. -/
def isNumeric (s : List Nat) : Bool :=
  let s := unsigned (s.dropWhile fun c => c = 32 || c = 9 || c = 10 || c = 13 || c = 11 || c = 12)
  isDecimal s || isHexadecimal s

/-- `==` of two strings. -/
def looseEq (sameNumber : List Nat → List Nat → Bool) (s t : List Nat) : Bool :=
  s = t || (isNumeric s && isNumeric t && sameNumber s t)

/-- What `trim` takes away: blank, tab, line feed, carriage return, zero byte, vertical tab. -/
def isBlank (c : Nat) : Bool := c = 32 || c = 9 || c = 10 || c = 13 || c = 0 || c = 11

def trim {α : Type} (code : α → Nat) (s : List α) : List α :=
  (s.dropWhile fun a => isBlank (code a)).rdropWhile fun a => isBlank (code a)

/-- `ord`, which takes the first byte; the empty string has the code 0. -/
def ord : Octets → UInt8
  | [] => 0
  | b :: _ => b

/-- `substr` from an offset inside the string, of a length that is not negative. -/
def substr (s : Octets) (start length : Nat) : Octets := (s.drop start).take length

theorem looseEq_self (sameNumber : List Nat → List Nat → Bool) (s : List Nat) :
    looseEq sameNumber s s = true := by
  simp [looseEq]

/-- Against a string that is no number, `==` is equality. -/
theorem looseEq_iff {sameNumber : List Nat → List Nat → Bool} {t : List Nat} (ht : isNumeric t = false)
    (s : List Nat) : looseEq sameNumber s t = true ↔ s = t := by
  simp [looseEq, ht]

theorem mem_of_mem_unsigned {c : Nat} {s : List Nat} (h : c ∈ unsigned s) : c ∈ s := by
  cases s with
  | nil => exact h
  | cons a s =>
    rw [unsigned] at h
    split at h
    · exact List.mem_cons_of_mem a h
    · exact h

theorem exists_digit_of_takeWhile {s : List Nat} (h : s.takeWhile isDigit ≠ []) :
    ∃ c ∈ s, isDigit c = true := by
  obtain ⟨c, hc⟩ := List.exists_mem_of_ne_nil _ h
  exact ⟨c, List.takeWhile_subset _ hc, List.mem_takeWhile_imp hc⟩

theorem exists_digit_of_isDecimal {s : List Nat} (h : isDecimal s = true) : ∃ c ∈ s, isDigit c = true := by
  rw [isDecimal] at h
  split at h
  · next rest hrest =>
    simp only [Bool.and_eq_true, decide_eq_true_eq] at h
    rcases h.1 with hwhole | hfraction
    · exact exists_digit_of_takeWhile hwhole
    · obtain ⟨c, hc, hdigit⟩ := exists_digit_of_takeWhile hfraction
      have hmem : c ∈ s.dropWhile isDigit := hrest ▸ List.mem_cons_of_mem 46 hc
      exact ⟨c, (List.dropWhile_suffix _).subset hmem, hdigit⟩
  · simp only [Bool.and_eq_true, decide_eq_true_eq] at h
    exact exists_digit_of_takeWhile h.1

/-- A number has a digit. -/
theorem exists_digit_of_isNumeric {s : List Nat} (h : isNumeric s = true) : ∃ c ∈ s, isDigit c = true := by
  rw [isNumeric, Bool.or_eq_true] at h
  have hback : ∀ c, c ∈ unsigned (s.dropWhile fun c => c = 32 || c = 9 || c = 10 || c = 13 || c = 11 ||
      c = 12) → c ∈ s := fun c hc => (List.dropWhile_suffix _).subset (mem_of_mem_unsigned hc)
  rcases h with h | h
  · obtain ⟨c, hc, hdigit⟩ := exists_digit_of_isDecimal h
    exact ⟨c, hback c hc, hdigit⟩
  · unfold isHexadecimal at h
    split at h
    · next x rest hrest =>
      refine ⟨48, hback 48 ?_, rfl⟩
      rw [hrest]
      exact List.mem_cons_self
    · cases h

/-- A trimmed text does not end in a blank. -/
theorem trim_ne_append_blank {α : Type} (code : α → Nat) (s t : List α) {a : α}
    (ha : isBlank (code a) = true) : trim code s ≠ t ++ [a] := by
  intro h
  have hlast := List.rdropWhile_last_not (fun a => isBlank (code a))
    (s.dropWhile fun a => isBlank (code a))
  rw [trim] at h
  have hne : (s.dropWhile fun a => isBlank (code a)).rdropWhile (fun a => isBlank (code a)) ≠ [] := by
    rw [h]
    exact List.append_ne_nil_of_right_ne_nil t (List.cons_ne_nil a [])
  apply hlast hne
  simp only [h, List.getLast_append_singleton, ha]

/-- Nor does it start with one. -/
theorem trim_ne_blank_cons {α : Type} (code : α → Nat) (s t : List α) {a : α}
    (ha : isBlank (code a) = true) : trim code s ≠ a :: t := by
  intro h
  have hpre : trim code s <+: s.dropWhile fun a => isBlank (code a) := List.rdropWhile_prefix _ _
  obtain ⟨rest, hrest⟩ := hpre
  rw [h, List.cons_append] at hrest
  have hne : s.dropWhile (fun a => isBlank (code a)) ≠ [] := by
    rw [← hrest]
    exact List.cons_ne_nil a _
  have hhead := List.head_dropWhile_not (fun a => isBlank (code a)) hne
  simp only [← hrest, List.head_cons, ha] at hhead
  cases hhead

end RubbishStore.Lib.PhpText
