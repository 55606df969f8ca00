import Mathlib.Data.List.Basic

/- Texts as lists of characters, and byte strings. A literal is written
   `chars "..."` or `octets "..."`, which nothing unfolds by itself: a proof that
   needs the characters asks for them with `simp [chars]` or `octets_eq`. -/
namespace RubbishStore.Lib

abbrev Text : Type := List Char

abbrev Octets : Type := List UInt8

/-- The characters of a literal. -/
@[irreducible] def chars (s : String) : Text := s.toList

/-- The bytes of an ASCII literal. -/
@[irreducible] def octets (s : String) : Octets := s.toList.map fun c => c.toNat.toUInt8

theorem octets_eq (s : String) : octets s = s.toList.map fun c => c.toNat.toUInt8 := by rw [octets]

/-- What holds of the 256 codes holds of every byte. -/
theorem forall_byte {P : UInt8 → Prop} (h : ∀ i : Fin 256, P (.ofFin i)) (b : UInt8) : P b := h b.toFin

/-- Texts without the separator can be told apart when they are joined with it. -/
theorem intercalate_injective {α : Type} [DecidableEq α] {sep : α} {s t : List (List α)} (hs : s ≠ []) (ht : t ≠ [])
    (hsep : ∀ x ∈ s, sep ∉ x) (hsep' : ∀ x ∈ t, sep ∉ x) (h : [sep].intercalate s = [sep].intercalate t) : s = t := by
  calc s = ([sep].intercalate s).splitOn sep := (List.splitOn_intercalate sep hsep hs).symm
    _ = ([sep].intercalate t).splitOn sep := by rw [h]
    _ = t := List.splitOn_intercalate sep hsep' ht

/-- ASCII lower case. -/
def lower (b : UInt8) : UInt8 := if 65 ≤ b ∧ b ≤ 90 then b + 32 else b

end RubbishStore.Lib
