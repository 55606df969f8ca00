import RubbishStore.Lib.Decimal
import RubbishStore.Lib.Text
import RubbishStore.Socket.FastCgi
import RubbishStore.Socket.Readline

/- What `str_echo` of `strecho.c` answers to a line: the sum of the two numbers in
   front of it. `sscanf` and `+` are undefined where a value does not fit a `long`,
   and so is the answer (`none`). An answer is a line by itself, without a NUL
   (`answer_line`), and the sum is that of the numbers as `printf` writes them,
   whatever blanks are between them and whatever follows (`answer_sum`). -/
namespace RubbishStore.Socket
open RubbishStore.Lib

/-- The values of a `long`. -/
def IsLong (n : Int) : Prop := -9223372036854775808 ≤ n ∧ n ≤ 9223372036854775807

instance (n : Int) : Decidable (IsLong n) := by
  unfold IsLong
  infer_instance

/-- The digits of `printf("%lu", n)`. -/
def digits (n : Nat) : Bytes := (Nat.toDigits 10 n).map fun c => c.toNat.toUInt8

/-- `printf("%ld", n)` -/
def longText (n : Int) : Bytes := if n < 0 then 45 :: digits n.natAbs else digits n.natAbs

/-- A sign in front is left out. -/
def unsigned : Bytes → Bytes
  | 45 :: s => s
  | 43 :: s => s
  | s => s

/-- `sscanf(s, "%ld")`: the number, and what is behind it. -/
def scanLong (s : Bytes) : Option (Int × Bytes) :=
  let s := s.dropWhile isSpace
  if (unsigned s).takeWhile isDigit = [] then none else some (signed s, (unsigned s).dropWhile isDigit)

def inputError : Bytes := octets "input error\n"

/-- What is written for a line. -/
def answer (line : Bytes) : Option Bytes :=
  match scanLong (cstring line) with
  | none => some inputError
  | some (arg1, rest) =>
    if IsLong arg1 then
      match scanLong rest with
      | none => some inputError
      | some (arg2, _) => if IsLong arg2 ∧ IsLong (arg1 + arg2) then some (longText (arg1 + arg2) ++ [10]) else none
    else none

/-! Numbers as `printf` writes them, and as `sscanf` reads them. -/

theorem isDigit_digitChar : ∀ d < 10, isDigit (Nat.digitChar d).toNat.toUInt8 = true := by decide

theorem isDigit_of_mem_digits {n : Nat} {b : UInt8} (hb : b ∈ digits n) : isDigit b = true := by
  obtain ⟨c, hc, rfl⟩ := List.mem_map.mp hb
  obtain ⟨d, hd, rfl⟩ := Decimal.exists_digitChar (Nat.isDigit_of_mem_toDigits (by decide) (by decide) hc)
  exact isDigit_digitChar d hd

theorem digits_cons (n : Nat) : ∃ b s, digits n = b :: s ∧ isDigit b = true := by
  have hne : digits n ≠ [] := by
    rw [digits, Ne, List.map_eq_nil_iff]
    exact Nat.toDigits_ne_nil
  obtain ⟨b, s, heq⟩ := List.exists_cons_of_ne_nil hne
  exact ⟨b, s, heq, isDigit_of_mem_digits (heq ▸ List.mem_cons_self)⟩

/-- What a number may stand in front of: it does not go on. -/
def NoDigit (rest : Bytes) : Prop := ∀ b ∈ rest.head?, isDigit b = false

theorem takeWhile_digits (n : Nat) {rest : Bytes} (hrest : NoDigit rest) :
    (digits n ++ rest).takeWhile isDigit = digits n ∧ (digits n ++ rest).dropWhile isDigit = rest := by
  have hall : ∀ b ∈ digits n, isDigit b = true := fun b hb => isDigit_of_mem_digits hb
  rw [List.takeWhile_append_of_pos hall, List.dropWhile_append_of_pos hall]
  cases rest with
  | nil => simp
  | cons b rest =>
    have hb : ¬ isDigit b = true := Bool.eq_false_iff.mp (hrest b rfl)
    rw [List.takeWhile_cons_of_neg hb, List.dropWhile_cons_of_neg hb, List.append_nil]
    exact ⟨rfl, rfl⟩

theorem leadingDigits_digits (n : Nat) {rest : Bytes} (hrest : NoDigit rest) : leadingDigits (digits n ++ rest) = n := by
  have hvalue : ∀ (m : Nat), ∀ c ∈ Nat.toDigits 10 n, 10 * m + (c.toNat.toUInt8.toNat - 48) = 10 * m + (c.toNat - 48) := by
    intro m c hc
    obtain ⟨d, hd, rfl⟩ := Decimal.exists_digitChar (Nat.isDigit_of_mem_toDigits (by decide) (by decide) hc)
    have hbyte : ∀ d < 10, (Nat.digitChar d).toNat.toUInt8.toNat = (Nat.digitChar d).toNat := by decide
    rw [hbyte d hd]
  rw [leadingDigits, (takeWhile_digits n hrest).1, digits, List.foldl_map, List.foldl_ext _ _ _ hvalue]
  exact Nat.ofDigitChars_ten_toDigits

/-- Nothing is taken off where there is no sign. -/
theorem unsigned_digit {b : UInt8} (hb : isDigit b = true) (s : Bytes) :
    unsigned (b :: s) = b :: s ∧ signed (b :: s) = leadingDigits (b :: s) := by
  have hminus : b ≠ 45 := by
    rintro rfl
    exact absurd hb (by decide)
  have hplus : b ≠ 43 := by
    rintro rfl
    exact absurd hb (by decide)
  constructor
  · rw [unsigned]
    · simpa using hminus
    · simpa using hplus
  · rw [signed]
    · simpa using hminus
    · simpa using hplus

theorem isSpace_of_isDigit {b : UInt8} (h : isDigit b = true) : isSpace b = false := by
  simp only [isDigit, Bool.and_eq_true, decide_eq_true_eq, UInt8.le_iff_toNat_le] at h
  simp only [isSpace, Bool.or_eq_false_iff, Bool.and_eq_false_iff, decide_eq_false_iff_not, UInt8.le_iff_toNat_le,
    ← UInt8.toNat_inj]
  have h48 : (48 : UInt8).toNat = 48 := rfl
  have h32 : (32 : UInt8).toNat = 32 := rfl
  have h13 : (13 : UInt8).toNat = 13 := rfl
  omega

/-- Behind any blanks, the number that `printf` has written. -/
theorem scanLong_longText {blank : Bytes} (hblank : ∀ b ∈ blank, isSpace b = true) (n : Int) {rest : Bytes}
    (hrest : NoDigit rest) : scanLong (blank ++ (longText n ++ rest)) = some (n, rest) := by
  obtain ⟨b, s, heq, hb⟩ := digits_cons n.natAbs
  have htake := takeWhile_digits n.natAbs hrest
  have hlead := leadingDigits_digits n.natAbs hrest
  rw [heq, List.cons_append] at htake hlead
  rw [scanLong, List.dropWhile_append_of_pos hblank, longText]
  by_cases hn : n < 0
  · have hvalue : signed (45 :: b :: (s ++ rest)) = n := by
      show -(leadingDigits (b :: (s ++ rest)) : Int) = n
      rw [hlead]
      omega
    rw [if_pos hn, List.cons_append, heq, List.cons_append, List.dropWhile_cons_of_neg (by decide)]
    simp only [unsigned, htake, hvalue]
    exact if_neg (List.cons_ne_nil b s)
  · have hspace : ¬ isSpace b = true := Bool.eq_false_iff.mp (isSpace_of_isDigit hb)
    have hvalue : signed (b :: (s ++ rest)) = n := by
      rw [(unsigned_digit hb _).2, hlead]
      omega
    rw [if_neg hn, heq, List.cons_append, List.dropWhile_cons_of_neg hspace]
    simp only [(unsigned_digit hb _).1, htake, hvalue]
    exact if_neg (List.cons_ne_nil b s)

/-! The answer. -/

theorem isPiece_line {s : Bytes} (hs : 10 ∉ s) (hlength : s.length + 1 < MAXLINE) :
    Framing.IsPiece (lineEnds MAXLINE) (s ++ [10]) where
  ne_nil := List.append_ne_nil_of_right_ne_nil _ (List.cons_ne_nil _ _)
  whole := (lineEnds_concat s 10).mpr (.inl rfl)
  first := by
    rw [List.dropLast_concat]
    intro p hp hne
    rw [← List.dropLast_concat_getLast hne] at hp ⊢
    refine Bool.eq_false_iff.mpr fun hends => ?_
    have hle := hp.length_le
    rw [List.length_append, List.length_singleton] at hle
    rcases (lineEnds_concat _ _).mp hends with heq | heq
    · exact hs (hp.subset (by rw [heq]; exact List.mem_append_right _ List.mem_cons_self))
    · omega

theorem not_mem_longText {b : UInt8} (hdigit : isDigit b = false) (hminus : b ≠ 45) (n : Int) : b ∉ longText n := by
  have hdigits : b ∉ digits n.natAbs := fun hb => Bool.false_ne_true (hdigit.symm.trans (isDigit_of_mem_digits hb))
  rw [longText]
  split
  · exact List.not_mem_cons_of_ne_of_not_mem hminus hdigits
  · exact hdigits

theorem length_longText {n : Int} (hn : IsLong n) : (longText n).length ≤ 20 := by
  have hdigits : (digits n.natAbs).length ≤ 19 := by
    rw [digits, List.length_map, Nat.length_toDigits_le_iff (by decide) (by decide)]
    obtain ⟨hlow, hhigh⟩ := hn
    omega
  rw [longText]
  split
  · exact Nat.succ_le_succ hdigits
  · exact Nat.le_succ_of_le hdigits

/-- The answer to a line is a line, which `strlen` does not cut short. -/
theorem answer_line {line reply : Bytes} (h : answer line = some reply) :
    Framing.IsPiece (lineEnds MAXLINE) reply ∧ 0 ∉ reply := by
  have herror : Framing.IsPiece (lineEnds MAXLINE) inputError ∧ 0 ∉ inputError := by
    have hbytes : inputError = octets "input error" ++ [10] := by simp [inputError, octets_eq]
    refine ⟨hbytes ▸ isPiece_line ?_ ?_, ?_⟩
    · simp [octets_eq]
    · simp [octets_eq, MAXLINE]
    · simp [inputError, octets_eq]
  have hsum : ∀ n, IsLong n → Framing.IsPiece (lineEnds MAXLINE) (longText n ++ [10]) ∧ 0 ∉ longText n ++ [10] := by
    intro n hn
    have hlength := length_longText hn
    refine ⟨isPiece_line (not_mem_longText rfl (by decide) n) (by rw [MAXLINE]; omega), ?_⟩
    rw [List.mem_append, not_or]
    exact ⟨not_mem_longText rfl (by decide) n, by decide⟩
  rw [answer] at h
  split at h
  · exact Option.some.inj h ▸ herror
  · split at h
    · split at h
      · exact Option.some.inj h ▸ herror
      · split at h
        · rename_i hlong
          exact Option.some.inj h ▸ hsum _ hlong.2
        · cases h
    · cases h

theorem cstring_append {s : Bytes} (hs : 0 ∉ s) (t : Bytes) : cstring (s ++ t) = s ++ cstring t := by
  apply List.takeWhile_append_of_pos
  intro b hb
  exact decide_eq_true fun heq => hs (heq ▸ hb)

/-- Two numbers with blanks in front and between are answered with their sum, whatever follows. -/
theorem answer_sum {m n : Int} (hm : IsLong m) (hn : IsLong n) (hsum : IsLong (m + n)) {before between after : Bytes}
    (hbefore : ∀ b ∈ before, isSpace b = true) (hbetween : ∀ b ∈ between, isSpace b = true)
    (happart : between ≠ [] ∨ n < 0) (hafter : NoDigit after) :
    answer (before ++ (longText m ++ (between ++ (longText n ++ after)))) = some (longText (m + n) ++ [10]) := by
  have hblank : ∀ {s : Bytes}, (∀ b ∈ s, isSpace b = true) → 0 ∉ s := by
    intro s hs hmem
    exact absurd (hs 0 hmem) (by decide)
  have hlong : ∀ k, 0 ∉ longText k := not_mem_longText rfl (by decide)
  have hnext : NoDigit (between ++ (longText n ++ cstring after)) := by
    intro b hb
    cases between with
    | nil =>
      -- no blank: the second number begins with its sign
      rw [longText, if_pos (happart.resolve_left fun hne => hne rfl)] at hb
      rw [← Option.some.inj hb]
      rfl
    | cons c between =>
      rw [← Option.some.inj hb]
      refine Bool.eq_false_iff.mpr fun hdigit => ?_
      exact Bool.false_ne_true ((isSpace_of_isDigit hdigit).symm.trans (hbetween c List.mem_cons_self))
  have hend : NoDigit (cstring after) := by
    intro b hb
    cases after with
    | nil => cases hb
    | cons c after =>
      by_cases hc : c = 0
      · rw [cstring, List.takeWhile_cons_of_neg (by simp [hc])] at hb
        cases hb
      · rw [cstring, List.takeWhile_cons_of_pos (by simp [hc])] at hb
        exact hafter b hb
  rw [answer, cstring_append (hblank hbefore), cstring_append (hlong m), cstring_append (hblank hbetween),
    cstring_append (hlong n), scanLong_longText hbefore m hnext]
  simp only [if_pos hm, scanLong_longText hbetween n hend, if_pos (And.intro hn hsum)]

end RubbishStore.Socket
