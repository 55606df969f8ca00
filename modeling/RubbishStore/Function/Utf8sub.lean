import RubbishStore.Lib.Utf8

/- `utf8sub`, the first characters of a string. How many bytes a character has is read
   off the binary digits of its first byte. At a boundary the tests find what `width`
   says (`countOf_eq_width`), so every round goes from a boundary to the next
   (`subLoop_boundary`). -/
namespace RubbishStore.Function.Utf8sub
open RubbishStore.Lib RubbishStore.Lib.PhpText RubbishStore.Lib.Utf8

/-- The binary digits, without leading zeros. -/
def decbin (n : Nat) : Text := Nat.toDigits 2 n

/-- What the chain of tests assigns to `$count`; `none` if no test holds. Two numerals of
    one length that start with 1 are `==` only if they are the same. -/
def countOf (hign : Text) : Option Nat :=
  if hign.length < 8 then some 1
  else if hign.take 3 = ['1', '1', '0'] then some 2
  else if hign.take 4 = ['1', '1', '1', '0'] then some 3
  else if hign.take 5 = ['1', '1', '1', '1', '0'] then some 4
  else if hign.take 6 = ['1', '1', '1', '1', '1', '0'] then some 5
  else if hign.take 7 = ['1', '1', '1', '1', '1', '1', '0'] then some 6
  else none

/-- The loop, for the rounds that `$chars` leaves until it is `$len`. Where no test holds,
    `$count` is what it was in the round before. -/
def subLoop (str : Octets) : Nat → Nat → Nat → Octets → Octets
  | 0, _, _, res => res
  | left + 1, count, offset, res =>
    if offset < str.length then
      let hign := decbin (ord (substr str offset 1)).toNat
      let count := (countOf hign).getD count
      subLoop str left count (offset + count) (res ++ substr str offset count)
    else res

/-- `none` is the `return ;` for a length that is not positive. A `$count` that was never
    assigned counts as 0. -/
def utf8sub (str : Octets) (len : Int) : Option Octets :=
  if len ≤ 0 then none else some (subLoop str len.toNat 0 0 [])

theorem countOf_eq_width : ∀ b, 0 < width b → countOf (decbin b.toNat) = some (width b) :=
  forall_byte (by decide +kernel)

/-- From a boundary on, the loop takes over the characters that follow, until there are no
    more or the rounds are over. -/
theorem subLoop_boundary (left count : Nat) (kept rest : List Character) (res : Octets) :
    subLoop (bytes (kept ++ rest)) left count (bytes kept).length res = res ++ bytes (rest.take left) := by
  induction left generalizing count kept rest res with
  | zero => rw [List.take_zero, bytes_nil, List.append_nil, subLoop]
  | succ left ih =>
    rw [subLoop]
    cases rest with
    | nil =>
      rw [List.append_nil, if_neg (Nat.lt_irrefl _), List.take_nil, bytes_nil, List.append_nil]
    | cons c rest =>
      have hcount : (countOf (decbin c.lead.toNat)).getD count = width c.lead := by
        rw [countOf_eq_width _ c.width_pos, Option.getD_some]
      have hnext := ih (width c.lead) (kept ++ [c]) rest (res ++ c.bytes)
      rw [boundary_concat, List.append_assoc, List.singleton_append] at hnext
      rw [if_pos (boundary_lt kept c rest), ord_at_boundary]
      simp only [hcount]
      rw [substr_at_boundary, hnext, List.take_succ_cons, bytes_cons, List.append_assoc]

/-- `utf8sub` gives the first characters of a well formed string, or all of them, and
    leaves a well formed string. -/
theorem utf8sub_eq_take (cs : List Character) (len : Int) (h : 1 ≤ len) :
    utf8sub (bytes cs) len = some (bytes (cs.take len.toNat)) ∧
      bytes cs = bytes (cs.take len.toNat) ++ bytes (cs.drop len.toNat) := by
  constructor
  · have hloop := subLoop_boundary len.toNat 0 [] cs []
    rw [utf8sub, if_neg (by omega)]
    exact congrArg some hloop
  · rw [← bytes_append, List.take_append_drop]

/-- One character of two bytes is kept, one of a single byte is left. -/
theorem utf8sub_eq_take_two_bytes :
    utf8sub (bytes [⟨0xc3, [0xa9], rfl, by decide⟩, ⟨97, [], rfl, by decide⟩]) 1 = some [0xc3, 0xa9] ∧
      bytes [⟨0xc3, [0xa9], rfl, by decide⟩, ⟨97, [], rfl, by decide⟩] = [0xc3, 0xa9] ++ [97] :=
  utf8sub_eq_take [⟨0xc3, [0xa9], rfl, by decide⟩, ⟨97, [], rfl, by decide⟩] 1 (by decide)

/-- Of a text it gives the first characters. -/
theorem utf8sub_encode (s : Text) {len : Int} (h : 1 ≤ len) :
    utf8sub (encode s) len = some (encode (s.take len.toNat)) := by
  obtain ⟨cs, hlength, htake⟩ := exists_characters s
  have hall : bytes cs = encode s := by
    have hwhole := htake cs.length
    rw [List.take_length, hlength, List.take_length] at hwhole
    exact hwhole
  have hloop := subLoop_boundary len.toNat 0 [] cs []
  rw [List.nil_append, hall, htake] at hloop
  rw [utf8sub, if_neg (by omega)]
  exact congrArg some hloop

/-- Beyond the last character there is nothing to take. -/
example : utf8sub [0xc3, 0xa9, 97] 5 = some [0xc3, 0xa9, 97] := by decide

end RubbishStore.Function.Utf8sub
