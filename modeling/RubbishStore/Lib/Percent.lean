import RubbishStore.Lib.Text
import Mathlib.Data.List.TakeWhile

/- Percent-encoding of byte strings. A byte that is not `safe` is written as `%` and
   two hexadecimal digits; whatever is safe, except `%` itself, the text decodes to
   the bytes (`decode_encode`). A query is a list of `name=value` joined by `&`; it
   is read back when the separators do not occur in its parts (`parseQuery_join`). -/
namespace RubbishStore.Lib.Percent

/-- `%`, `&`, `=` -/
def percent : UInt8 := 37
def ampersand : UInt8 := 38
def equals : UInt8 := 61

def hexDigit (n : UInt8) : UInt8 := if n < 10 then 48 + n else 55 + n

/-- Either case is read. -/
def hexValue (b : UInt8) : Option UInt8 :=
  if 48 ≤ b ∧ b ≤ 57 then some (b - 48)
  else if 65 ≤ b ∧ b ≤ 70 then some (b - 55)
  else if 97 ≤ b ∧ b ≤ 102 then some (b - 87)
  else none

def encodeByte (safe : UInt8 → Bool) (b : UInt8) : Octets :=
  if safe b then [b] else [percent, hexDigit (b / 16), hexDigit (b % 16)]

def encode (safe : UInt8 → Bool) (s : Octets) : Octets := s.flatMap (encodeByte safe)

/-- A `%` that two digits do not follow stands for itself. -/
def decode : Octets → Octets
  | [] => []
  | [b] => [b]
  | [b, x] => [b, x]
  | b :: x :: y :: s =>
    if b = percent then
      match hexValue x, hexValue y with
      | some hi, some lo => (16 * hi + lo) :: decode s
      | _, _ => b :: decode (x :: y :: s)
    else b :: decode (x :: y :: s)

/-- In a form a `+` is a space. -/
def urldecode (s : Octets) : Octets := decode (s.map fun b => if b = 43 then 32 else b)

/-- `name=value` texts, joined. -/
def joinQuery (pairs : List (Octets × Octets)) : Octets :=
  [ampersand].intercalate (pairs.map fun p => p.1 ++ equals :: p.2)

/-- A part of a query at its first `=`. -/
def splitPair (part : Octets) : Octets × Octets :=
  let name := part.takeWhile (· != equals)
  (name, part.drop (name.length + 1))

def parseQuery (s : Octets) : List (Octets × Octets) :=
  (s.splitOn ampersand).map fun part =>
    let p := splitPair part
    (decode p.1, decode p.2)

theorem decode_cons {b : UInt8} (h : b ≠ percent) (s : Octets) : decode (b :: s) = b :: decode s := by
  match s with
  | [] => rfl
  | [_] => rfl
  | _ :: _ :: _ => rw [decode, if_neg h]

/-- Without a `%` nothing is decoded. -/
theorem decode_plain {s : Octets} (h : percent ∉ s) : decode s = s := by
  induction s with
  | nil => rfl
  | cons b s ih =>
    have hb : b ≠ percent := fun hb => h (hb ▸ List.mem_cons_self)
    rw [decode_cons hb, ih fun hmem => h (List.mem_cons_of_mem b hmem)]

theorem hex_byte : ∀ b,
    hexValue (hexDigit (b / 16)) = some (b / 16) ∧ hexValue (hexDigit (b % 16)) = some (b % 16) ∧
      16 * (b / 16) + b % 16 = b :=
  forall_byte (by decide +kernel)

section
variable {safe : UInt8 → Bool} (hsafe : ∀ b, safe b → b ≠ percent)
include hsafe

theorem decode_encodeByte (b : UInt8) (s : Octets) :
    decode (encodeByte safe b ++ s) = b :: decode s := by
  rw [encodeByte]
  by_cases hb : safe b
  · rw [if_pos hb, List.singleton_append, decode_cons (hsafe b hb)]
  · have hhex := hex_byte b
    rw [if_neg hb]
    show decode (percent :: hexDigit (b / 16) :: hexDigit (b % 16) :: s) = _
    rw [decode, if_pos rfl, hhex.1, hhex.2.1]
    show (16 * (b / 16) + b % 16) :: decode s = b :: decode s
    rw [hhex.2.2]

theorem decode_encode_append (s t : Octets) : decode (encode safe s ++ t) = s ++ decode t := by
  induction s with
  | nil => rfl
  | cons b s ih =>
    have hcons : encode safe (b :: s) = encodeByte safe b ++ encode safe s := List.flatMap_cons
    rw [hcons, List.append_assoc, decode_encodeByte hsafe, ih, List.cons_append]

theorem decode_encode (s : Octets) : decode (encode safe s) = s := by
  have happend := decode_encode_append hsafe s []
  simpa [decode] using happend

end

/-- An encoded text holds no byte that is not safe, except for the encoding's own. -/
theorem not_mem_encode {safe : UInt8 → Bool} {c : UInt8} (hdigit : hexValue c = none)
    (hpercent : c ≠ percent) (hc : safe c = false) (s : Octets) : c ∉ encode safe s := by
  intro hmem
  obtain ⟨b, -, hb⟩ := List.mem_flatMap.mp hmem
  rw [encodeByte] at hb
  by_cases hs : safe b
  · rw [if_pos hs, List.mem_singleton] at hb
    rw [hb, hs] at hc
    cases hc
  · have hhex := hex_byte b
    rw [if_neg hs] at hb
    simp only [List.mem_cons, List.not_mem_nil, or_false] at hb
    rcases hb with hb | hb | hb
    · exact hpercent hb
    · rw [hb, hhex.1] at hdigit
      cases hdigit
    · rw [hb, hhex.2.1] at hdigit
      cases hdigit

theorem splitPair_join {name : Octets} (h : equals ∉ name) (value : Octets) :
    splitPair (name ++ equals :: value) = (name, value) := by
  have hname : (name ++ equals :: value).takeWhile (· != equals) = name := by
    induction name with
    | nil => rfl
    | cons b name ih =>
      have hb : (b != equals) = true := by
        rw [bne_iff_ne]
        exact fun hb => h (hb ▸ List.mem_cons_self)
      rw [List.cons_append, List.takeWhile_cons, if_pos hb,
        ih fun hmem => h (List.mem_cons_of_mem b hmem)]
  rw [splitPair, hname]
  simp [List.drop_append]

theorem join_splitPair {part : Octets} (h : equals ∈ part) :
    (splitPair part).1 ++ equals :: (splitPair part).2 = part := by
  induction part with
  | nil => cases h
  | cons b part ih =>
    by_cases hb : b = equals
    · subst hb
      simp [splitPair]
    · have hne : (b != equals) = true := bne_iff_ne.mpr hb
      have hpart := ih ((List.mem_cons.mp h).resolve_left fun h' => hb h'.symm)
      simpa [splitPair, List.takeWhile_cons, hne] using hpart

theorem equals_not_mem_name (part : Octets) : equals ∉ (splitPair part).1 := by
  intro hmem
  have hne := List.mem_takeWhile_imp hmem
  simp at hne

theorem parseQuery_join {pairs : List (Octets × Octets)} (hne : pairs ≠ [])
    (h : ∀ p ∈ pairs, ampersand ∉ p.1 ∧ equals ∉ p.1 ∧ ampersand ∉ p.2) :
    parseQuery (joinQuery pairs) = pairs.map fun p => (decode p.1, decode p.2) := by
  have hsplit : (joinQuery pairs).splitOn ampersand = pairs.map fun p => p.1 ++ equals :: p.2 := by
    apply List.splitOn_intercalate
    · intro part hpart
      obtain ⟨p, hp, rfl⟩ := List.mem_map.mp hpart
      obtain ⟨h₁, -, h₂⟩ := h p hp
      simp only [List.mem_append, List.mem_cons, not_or]
      exact ⟨h₁, by decide, h₂⟩
    · simpa using hne
  rw [parseQuery, hsplit, List.map_map]
  apply List.map_congr_left
  intro p hp
  simp only [Function.comp_apply, splitPair_join (h p hp).2.1]

/-- The first part, and each other one behind a separator. -/
theorem joinQuery_cons (p : Octets × Octets) (pairs : List (Octets × Octets)) :
    joinQuery (p :: pairs) =
      p.1 ++ equals :: p.2 ++ pairs.flatMap fun q => ampersand :: (q.1 ++ equals :: q.2) := by
  induction pairs generalizing p with
  | nil => simp [joinQuery]
  | cons q pairs ih =>
    have hjoin : joinQuery (p :: q :: pairs) =
        p.1 ++ equals :: p.2 ++ [ampersand] ++ joinQuery (q :: pairs) := by
      simp [joinQuery, List.intercalate_cons_cons]
    rw [hjoin, ih, List.flatMap_cons]
    simp

end RubbishStore.Lib.Percent
