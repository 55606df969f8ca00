import RubbishStore.Lib.PhpText
import Mathlib.Data.List.Flatten

/- UTF-8 as the first byte of a character tells it: a byte below 128 is a character, and
   a first byte with two to six leading ones is followed by as many bytes less one that
   start with `10`. A `Character` is such a sequence; a string is well formed if it is
   the bytes of a list of characters, and an offset is a boundary if the bytes before it
   are those of the first characters. What is read at a boundary is the next character. -/
namespace RubbishStore.Lib.Utf8
open RubbishStore.Lib.PhpText

/-- `10xxxxxx` -/
def isTail (b : UInt8) : Bool := 128 ≤ b && b < 192

/-- How many bytes a character has that starts so; none starts with a byte that gives 0. -/
def width (b : UInt8) : Nat :=
  if b < 128 then 1
  else if b < 192 then 0
  else if b < 224 then 2
  else if b < 240 then 3
  else if b < 248 then 4
  else if b < 252 then 5
  else if b < 254 then 6
  else 0

structure Character where
  lead : UInt8
  tail : Octets
  width_eq : width lead = tail.length + 1
  tail_plain : tail.all isTail = true

def Character.bytes (c : Character) : Octets := c.lead :: c.tail

/-- The string of some characters. -/
def bytes (cs : List Character) : Octets := cs.flatMap Character.bytes

/-- The string of a text. -/
def encode (s : Text) : Octets := s.flatMap String.utf8EncodeChar

@[simp]
theorem bytes_nil : bytes [] = [] := rfl

@[simp]
theorem bytes_cons (c : Character) (cs : List Character) : bytes (c :: cs) = c.bytes ++ bytes cs := rfl

@[simp]
theorem bytes_append (cs ds : List Character) : bytes (cs ++ ds) = bytes cs ++ bytes ds :=
  List.flatMap_append

theorem Character.length_bytes (c : Character) : c.bytes.length = width c.lead :=
  c.width_eq.symm

theorem Character.width_pos (c : Character) : 0 < width c.lead := by
  rw [c.width_eq]
  exact Nat.succ_pos _

theorem length_le_length_bytes (cs : List Character) : cs.length ≤ (bytes cs).length := by
  induction cs with
  | nil => exact Nat.le_refl 0
  | cons c cs ih =>
    have := c.width_pos
    rw [bytes_cons, List.length_append, List.length_cons, c.length_bytes]
    omega

/-! What is read at a boundary. -/

section
variable (kept : List Character) (c : Character) (rest : List Character)

theorem drop_boundary : (bytes (kept ++ rest)).drop (bytes kept).length = bytes rest := by
  rw [bytes_append, List.drop_left]

theorem take_boundary : (bytes (kept ++ rest)).take (bytes kept).length = bytes kept := by
  rw [bytes_append, List.take_left]

theorem lead_at_boundary : (bytes (kept ++ c :: rest))[(bytes kept).length]? = some c.lead := by
  rw [bytes_append, List.getElem?_append_right (Nat.le_refl _), Nat.sub_self]
  rfl

theorem ord_at_boundary : ord (substr (bytes (kept ++ c :: rest)) (bytes kept).length 1) = c.lead := by
  rw [substr, drop_boundary]
  rfl

theorem substr_at_boundary :
    substr (bytes (kept ++ c :: rest)) (bytes kept).length (width c.lead) = c.bytes := by
  rw [substr, drop_boundary, bytes_cons, ← c.length_bytes, List.take_left]

/-- Inside the character that starts at a boundary. -/
theorem drop_inside {k : Nat} (hk : k ≤ width c.lead) :
    (bytes (kept ++ c :: rest)).drop ((bytes kept).length + k) = c.bytes.drop k ++ bytes rest := by
  rw [← List.drop_drop, drop_boundary, bytes_cons, List.drop_append_of_le_length (c.length_bytes ▸ hk)]

/-- The next boundary. -/
theorem boundary_concat : (bytes (kept ++ [c])).length = (bytes kept).length + width c.lead := by
  rw [bytes_append, List.length_append, bytes_cons, bytes_nil, List.append_nil, c.length_bytes]

theorem boundary_lt : (bytes kept).length < (bytes (kept ++ c :: rest)).length := by
  rw [bytes_append, List.length_append, bytes_cons, List.length_append, c.length_bytes]
  have := c.width_pos
  omega

end

/-- No beginning of a string ends inside one of its characters. -/
theorem boundary_not_inside {p kept rest : List Character} {c : Character} (hp : p <+: kept ++ c :: rest)
    (h : (bytes kept).length < (bytes p).length) :
    (bytes kept).length + width c.lead ≤ (bytes p).length := by
  rw [List.append_cons] at hp
  rcases List.prefix_or_prefix_of_prefix hp (List.prefix_append (kept ++ [c]) rest) with hshort | hlong
  · rcases List.prefix_concat_iff.mp hshort with heq | hfront
    · exact Nat.le_of_eq (by rw [heq, boundary_concat])
    · obtain ⟨t, rfl⟩ := hfront
      rw [bytes_append, List.length_append] at h
      omega
  · obtain ⟨t, rfl⟩ := hlong
    rw [bytes_append, List.length_append, boundary_concat]
    exact Nat.le_add_right _ _

/-- The character that the byte number `n` belongs to. -/
theorem exists_character_at {cs : List Character} {n : Nat} (hn : 0 < n) (h : n ≤ (bytes cs).length) :
    ∃ kept c rest, cs = kept ++ c :: rest ∧ (bytes kept).length < n ∧
      n ≤ (bytes kept).length + width c.lead := by
  induction cs generalizing n with
  | nil => exact absurd h (Nat.not_le.mpr hn)
  | cons c cs ih =>
    rw [bytes_cons, List.length_append, c.length_bytes] at h
    by_cases hhere : n ≤ width c.lead
    · exact ⟨[], c, cs, rfl, hn, Nat.le_trans hhere (Nat.le_add_left _ _)⟩
    · obtain ⟨kept, d, rest, hcs, hlow, hhigh⟩ := ih (n := n - width c.lead) (by omega) (by omega)
      refine ⟨c :: kept, d, rest, congrArg (c :: ·) hcs, ?_, ?_⟩
      all_goals
        rw [bytes_cons, List.length_append, c.length_bytes]
        omega

/-- Of two beginnings of a string the one with as many bytes is the other. -/
theorem eq_of_length_bytes_eq {p q cs : List Character} (hp : p <+: cs) (hq : q <+: cs)
    (h : (bytes p).length = (bytes q).length) : p = q := by
  have hempty : ∀ {r t : List Character}, (bytes (r ++ t)).length = (bytes r).length → r ++ t = r := by
    intro r t hsame
    cases t with
    | nil => rw [List.append_nil]
    | cons c t =>
      have := boundary_lt r c t
      omega
  rcases List.prefix_or_prefix_of_prefix hp hq with ⟨t, rfl⟩ | ⟨t, rfl⟩
  · exact (hempty h.symm).symm
  · exact hempty h

/-! Texts. -/

@[simp]
theorem encode_nil : encode [] = [] := rfl

@[simp]
theorem encode_append (s t : Text) : encode (s ++ t) = encode s ++ encode t := List.flatMap_append

theorem length_encode_singleton (c : Char) : (encode [c]).length = c.utf8Size := by
  rw [encode, List.flatMap_singleton, String.length_utf8EncodeChar]

theorem length_encode_concat (s : Text) (c : Char) :
    (encode (s ++ [c])).length = (encode s).length + c.utf8Size := by
  rw [encode_append, List.length_append, length_encode_singleton]

theorem length_le_length_encode (s : Text) : s.length ≤ (encode s).length := by
  induction s with
  | nil => exact Nat.le_refl 0
  | cons c s ih =>
    have hpos := c.utf8Size_pos
    rw [← List.singleton_append, encode_append, List.length_append, List.length_append,
      length_encode_singleton, List.length_singleton]
    omega

theorem encode_take_front (s t : Text) : (encode (s ++ t)).take (encode s).length = encode s := by
  rw [encode_append, List.take_left]

theorem length_encode_lt (s : Text) (c : Char) (t : Text) :
    (encode s).length < (encode (s ++ c :: t)).length := by
  have hpos := c.utf8Size_pos
  rw [List.append_cons, encode_append, List.length_append, length_encode_concat]
  omega

theorem isTail_low (n : Nat) : isTail (UInt8.ofNat (n % 64 + 128)) = true := by
  have hbytes : ∀ i : Fin 64, isTail (UInt8.ofNat (i.val + 128)) = true := by decide
  exact hbytes ⟨n % 64, Nat.mod_lt _ (by decide)⟩

/-- The encoding of a code point is one of these sequences. -/
theorem exists_character (c : Char) : ∃ d : Character, d.bytes = String.utf8EncodeChar c := by
  have hone : ∀ n : Fin 128, width (UInt8.ofNat n) = 1 := by decide
  have htwo : ∀ n : Fin 32, width (UInt8.ofNat (n + 192)) = 2 := by decide
  have hthree : ∀ n : Fin 16, width (UInt8.ofNat (n + 224)) = 3 := by decide
  have hfour : ∀ n : Fin 8, width (UInt8.ofNat (n + 240)) = 4 := by decide
  rw [String.utf8EncodeChar]
  generalize c.val.toNat = v
  split
  · have hwidth := hone ⟨v, by omega⟩
    exact ⟨⟨_, [], hwidth, rfl⟩, rfl⟩
  split
  · have hwidth := htwo ⟨v / 64 % 32, Nat.mod_lt _ (by decide)⟩
    refine ⟨⟨_, [_], hwidth, ?_⟩, rfl⟩
    simp only [List.all_cons, List.all_nil, isTail_low, Bool.and_true]
  split
  · have hwidth := hthree ⟨v / 4096 % 16, Nat.mod_lt _ (by decide)⟩
    refine ⟨⟨_, [_, _], hwidth, ?_⟩, rfl⟩
    simp only [List.all_cons, List.all_nil, isTail_low, Bool.and_true]
  · have hwidth := hfour ⟨v / 262144 % 8, Nat.mod_lt _ (by decide)⟩
    refine ⟨⟨_, [_, _, _], hwidth, ?_⟩, rfl⟩
    simp only [List.all_cons, List.all_nil, isTail_low, Bool.and_true]

/-- A text is a list of characters, beginning for beginning. -/
theorem exists_characters (s : Text) :
    ∃ cs : List Character, cs.length = s.length ∧ ∀ k, bytes (cs.take k) = encode (s.take k) := by
  induction s with
  | nil =>
    refine ⟨[], rfl, fun k => ?_⟩
    rw [List.take_nil, List.take_nil]
    rfl
  | cons c s ih =>
    obtain ⟨d, hd⟩ := exists_character c
    obtain ⟨cs, hlength, htake⟩ := ih
    refine ⟨d :: cs, congrArg (· + 1) hlength, fun k => ?_⟩
    cases k with
    | zero => rfl
    | succ k =>
      rw [List.take_succ_cons, List.take_succ_cons, bytes_cons, htake, hd]
      rfl

end RubbishStore.Lib.Utf8
