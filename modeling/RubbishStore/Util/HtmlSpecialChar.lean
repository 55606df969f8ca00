import RubbishStore.Lib.Nested
import RubbishStore.Lib.Text

/- `Util_PublicMethods::chgHtmlSpecialChar` and its inverse. On a plain string they undo
   each other, since every `&` of an escaped string begins one of the four entities
   (`decode_htmlspecialchars`). The inverse of an array calls the escaping function for the
   values again, which never takes a character away: an array comes back just when there
   is nothing to escape in it. -/
namespace RubbishStore.Util.HtmlSpecialChar
open RubbishStore.Lib RubbishStore.Lib.Nested

variable {K : Type}

/-- The characters of markup, as `ENT_COMPAT` has them. -/
def isSpecial (c : Char) : Bool := c = '&' || c = '"' || c = '<' || c = '>'

def entity (c : Char) : Text :=
  if c = '&' then chars "&amp;"
  else if c = '"' then chars "&quot;"
  else if c = '<' then chars "&lt;"
  else if c = '>' then chars "&gt;"
  else [c]

/-- Of a string of the configured character set. -/
def htmlspecialchars (s : Text) : Text := s.flatMap entity

/-- Later versions read the numbers of these characters as well, `&#60;` for one; an escaped
    string has none. -/
def htmlspecialchars_decode : Text → Text
  | [] => []
  | '&' :: 'a' :: 'm' :: 'p' :: ';' :: s => '&' :: htmlspecialchars_decode s
  | '&' :: 'q' :: 'u' :: 'o' :: 't' :: ';' :: s => '"' :: htmlspecialchars_decode s
  | '&' :: 'l' :: 't' :: ';' :: s => '<' :: htmlspecialchars_decode s
  | '&' :: 'g' :: 't' :: ';' :: s => '>' :: htmlspecialchars_decode s
  | c :: s => c :: htmlspecialchars_decode s

def chgHtmlSpecialChar (mixData : Nested K Text) : Nested K Text := mixData.map htmlspecialchars

/-- The call for the values of an array is the one of `chgHtmlSpecialChar`. -/
def chgHtmlSpecialChar_decode : Nested K Text → Nested K Text
  | .array entries => .array (mapEntries htmlspecialchars entries)
  | .scalar s => .scalar (htmlspecialchars_decode s)

/-! Strings. -/

theorem entity_of_special {c : Char} (h : isSpecial c = true) : 2 ≤ (entity c).length := by
  simp only [isSpecial, Bool.or_eq_true, decide_eq_true_eq] at h
  obtain ((rfl | rfl) | rfl) | rfl := h
  all_goals simp [entity, chars]

theorem entity_of_plain {c : Char} (h : isSpecial c = false) : entity c = [c] := by
  simp only [isSpecial, Bool.or_eq_false_iff, decide_eq_false_iff_not] at h
  obtain ⟨⟨⟨hamp, hquot⟩, hlt⟩, hgt⟩ := h
  rw [entity, if_neg hamp, if_neg hquot, if_neg hlt, if_neg hgt]

theorem decode_plain {c : Char} (h : c ≠ '&') (s : Text) :
    htmlspecialchars_decode (c :: s) = c :: htmlspecialchars_decode s := by
  rw [htmlspecialchars_decode]
  all_goals
    intros
    simp_all

theorem decode_entity (c : Char) (s : Text) :
    htmlspecialchars_decode (entity c ++ s) = c :: htmlspecialchars_decode s := by
  by_cases hspecial : isSpecial c = true
  · simp only [isSpecial, Bool.or_eq_true, decide_eq_true_eq] at hspecial
    obtain ((rfl | rfl) | rfl) | rfl := hspecial
    all_goals simp [entity, chars, htmlspecialchars_decode]
  · have hplain : isSpecial c = false := Bool.not_eq_true _ ▸ hspecial
    have hamp : c ≠ '&' := by
      intro hc
      rw [hc] at hspecial
      exact hspecial (by decide)
    rw [entity_of_plain hplain, List.singleton_append, decode_plain hamp]

theorem decode_htmlspecialchars (s : Text) : htmlspecialchars_decode (htmlspecialchars s) = s := by
  induction s with
  | nil => rfl
  | cons c s ih =>
    rw [htmlspecialchars] at ih ⊢
    rw [List.flatMap_cons, decode_entity, ih]

theorem length_entity_pos (c : Char) : 1 ≤ (entity c).length := by
  cases hspecial : isSpecial c with
  | true => exact Nat.le_of_succ_le (entity_of_special hspecial)
  | false => exact Nat.le_of_eq (congrArg List.length (entity_of_plain hspecial)).symm

theorem length_le_htmlspecialchars (s : Text) : s.length ≤ (htmlspecialchars s).length := by
  induction s with
  | nil => exact Nat.le_refl 0
  | cons c s ih =>
    rw [htmlspecialchars] at ih ⊢
    rw [List.flatMap_cons, List.length_append, List.length_cons]
    have := length_entity_pos c
    omega

/-- A string that does not grow has nothing to escape. -/
theorem plain_of_length_eq {s : Text} (h : (htmlspecialchars s).length = s.length) :
    ∀ c ∈ s, isSpecial c = false := by
  induction s with
  | nil => simp
  | cons c s ih =>
    have hrest := length_le_htmlspecialchars s
    rw [htmlspecialchars] at ih h hrest
    rw [List.flatMap_cons, List.length_append, List.length_cons] at h
    have hone := length_entity_pos c
    have hc : isSpecial c = false := by
      cases hspecial : isSpecial c with
      | true =>
        have := entity_of_special hspecial
        omega
      | false => rfl
    exact List.forall_mem_cons.mpr ⟨hc, ih (by omega)⟩

theorem htmlspecialchars_of_plain {s : Text} (h : ∀ c ∈ s, isSpecial c = false) :
    htmlspecialchars s = s := by
  rw [htmlspecialchars, List.flatMap_congr fun c hc => entity_of_plain (h c hc)]
  exact List.flatMap_singleton' s

/-- Escaped twice, a string is what it was just when there is nothing to escape. -/
theorem htmlspecialchars_twice_iff (s : Text) :
    htmlspecialchars (htmlspecialchars s) = s ↔ ∀ c ∈ s, isSpecial c = false := by
  constructor
  · intro htwice
    apply plain_of_length_eq
    have hone := length_le_htmlspecialchars s
    have htwo := length_le_htmlspecialchars (htmlspecialchars s)
    rw [htwice] at htwo
    exact Nat.le_antisymm htwo hone
  · intro hplain
    rw [htmlspecialchars_of_plain hplain, htmlspecialchars_of_plain hplain]

/-! Arrays. -/

/-- **Decoding undoes escaping** for a plain string, and for an array just when none of its
    strings, at any depth, has anything to escape. -/
theorem decode_chgHtmlSpecialChar_iff (mixData : Nested K Text) :
    chgHtmlSpecialChar_decode (chgHtmlSpecialChar mixData) = mixData ↔
      (∃ s, mixData = .scalar s) ∨ ∀ s ∈ scalars mixData, ∀ c ∈ s, isSpecial c = false := by
  cases mixData with
  | scalar s =>
    rw [chgHtmlSpecialChar, Nested.map, chgHtmlSpecialChar_decode, decode_htmlspecialchars]
    exact iff_of_true rfl (.inl ⟨s, rfl⟩)
  | array entries =>
    have hback : chgHtmlSpecialChar_decode (chgHtmlSpecialChar (.array entries)) =
        map (htmlspecialchars ∘ htmlspecialchars) (.array entries) := by
      rw [chgHtmlSpecialChar, Nested.map, chgHtmlSpecialChar_decode, Nested.map,
        mapEntries_mapEntries]
    have hno : ¬ ∃ s : Text, Nested.array entries = .scalar s := fun h => nomatch h
    rw [hback, map_eq_self_iff, or_iff_right hno]
    exact forall₂_congr fun s _ => htmlspecialchars_twice_iff s

theorem decode_array_differs :
    ¬ ∀ mixData : Nested Nat Text, chgHtmlSpecialChar_decode (chgHtmlSpecialChar mixData) = mixData := by
  intro h
  have hless := h (.array (.cons 0 (.scalar ['<']) .nil))
  have hvalue : htmlspecialchars (htmlspecialchars ['<']) = ['&', 'a', 'm', 'p', ';', 'l', 't', ';'] := by
    simp [htmlspecialchars, entity, chars]
  rw [chgHtmlSpecialChar, Nested.map, chgHtmlSpecialChar_decode, mapEntries, mapEntries, mapEntries,
    mapEntries, Nested.map, Nested.map, hvalue] at hless
  simp at hless

end RubbishStore.Util.HtmlSpecialChar
