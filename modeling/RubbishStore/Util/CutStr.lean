import RubbishStore.Lib.Nested
import RubbishStore.Lib.Utf8

/- `Util_PublicMethods::cutStr` and `cbcutStr`. The room for a text is the limit, in
   characters, less the length of the ellipsis, in bytes. If it is negative, `mb_substr`
   leaves out so many characters at the end of the text, however long that is
   (`length_cutText`). Both functions keep to their limit exactly where this does no harm. -/
namespace RubbishStore.Util.CutStr
open RubbishStore.Lib RubbishStore.Lib.Nested RubbishStore.Lib.Utf8

variable {K : Type}

def strlen (s : Text) : Nat := (encode s).length

/-- `mb_substr($str, 0, $length, 'utf8')`; a negative length counts from the end. -/
def mbSubstr (str : Text) (length : Int) : Text :=
  str.take (if 0 ≤ length then length else str.length + length).toNat

/-- `cutStr` of a text. -/
def cutText (intLength : Int) (strLast : Text) (mixData : Text) : Text :=
  if mixData.length ≤ intLength then mixData
  else
    let strCut := mbSubstr mixData (intLength - strlen strLast)
    strCut ++ strLast

def cutStr (mixData : Nested K Text) (intLength : Int) (strLast : Text := chars "...") : Nested K Text :=
  mixData.map (cutText intLength strLast)

/-- The array of the first `if` in the source is overwritten by what follows. -/
def cbcutStr (strVal1 strVal2 : Text) (intLength : Int) (strLast : Text := chars "...") : Text × Text :=
  if strVal1.length > intLength then (cutText intLength strLast strVal1, [])
  else
    let intSecLength := intLength - strVal1.length
    if strVal2.length > intSecLength then (strVal1, cutText intSecLength strLast strVal2)
    else (strVal1, strVal2)

/-- A text is to become one of the length asked for, itself if it fits. -/
def CutTo (intLength : Int) (strLast s s' : Text) : Prop :=
  s'.length ≤ intLength ∧ (s.length ≤ intLength → s' = s) ∧
    (intLength < s.length → ∃ front, front <+: s ∧ s' = front ++ strLast)

/-- Two texts are to share the length; the first one comes out as it would alone. -/
def Combines (strVal1 strVal2 : Text) (intLength : Int) : Prop :=
  ((cbcutStr strVal1 strVal2 intLength).1.length + (cbcutStr strVal1 strVal2 intLength).2.length : Int) ≤
      intLength ∧
    ((strVal1.length + strVal2.length : Int) ≤ intLength →
      cbcutStr strVal1 strVal2 intLength = (strVal1, strVal2)) ∧
    (strVal1.length ≤ intLength → (cbcutStr strVal1 strVal2 intLength).1 = strVal1) ∧
    ∀ other, (cbcutStr strVal1 strVal2 intLength).1 = (cbcutStr strVal1 other intLength).1

section
variable {intLength : Int} {strLast s : Text}

theorem cutText_of_le (h : s.length ≤ intLength) : cutText intLength strLast s = s := by
  rw [cutText, if_pos h]

theorem cutText_of_lt (h : intLength < s.length) :
    ∃ front, front <+: s ∧ cutText intLength strLast s = front ++ strLast := by
  rw [cutText, if_neg (Int.not_le.mpr h)]
  exact ⟨_, List.take_prefix _ s, rfl⟩

/-- How long a text is that has been cut. -/
theorem length_cutText (h : intLength < s.length) :
    (cutText intLength strLast s).length =
      (if strlen strLast ≤ intLength then intLength - strlen strLast
        else s.length + (intLength - strlen strLast)).toNat + strLast.length := by
  rw [cutText, if_neg (Int.not_le.mpr h), List.length_append, mbSubstr, List.length_take]
  split <;> split <;> omega

/-- A text that has been cut is short enough if there is room for the ellipsis, or if the
    bytes of the ellipsis are as many as the characters of both. -/
theorem length_cutText_le_iff (h : intLength < s.length) :
    (cutText intLength strLast s).length ≤ intLength ↔
      strlen strLast ≤ intLength ∨
        (strLast.length ≤ intLength ∧ s.length + strLast.length ≤ strlen strLast) := by
  have hbytes : strLast.length ≤ strlen strLast := length_le_length_encode strLast
  rw [length_cutText h]
  split <;> omega

theorem cutTo_iff :
    CutTo intLength strLast s (cutText intLength strLast s) ↔
      (intLength < s.length → strlen strLast ≤ intLength ∨
        (strLast.length ≤ intLength ∧ s.length + strLast.length ≤ strlen strLast)) := by
  constructor
  · intro hcut hlong
    exact (length_cutText_le_iff hlong).mp hcut.1
  · intro hroom
    refine ⟨?_, cutText_of_le, cutText_of_lt⟩
    by_cases hlong : intLength < s.length
    · exact (length_cutText_le_iff hlong).mpr (hroom hlong)
    · rw [cutText_of_le (Int.not_lt.mp hlong)]
      exact Int.not_lt.mp hlong

end

/-- `cutStr` keeps keys and order at any depth; it cuts every text to the length asked for
    exactly if for each one that is too long there is room for the ellipsis, or the bytes
    of the ellipsis are as many as the characters of both. -/
theorem cutStr_cuts_iff (mixData : Nested K Text) (intLength : Int) (strLast : Text) :
    (shape (cutStr mixData intLength strLast) = shape mixData ∧
      List.Forall₂ (CutTo intLength strLast) (scalars mixData) (scalars (cutStr mixData intLength strLast))) ↔
    ∀ s ∈ scalars mixData, intLength < s.length → strlen strLast ≤ intLength ∨
      (strLast.length ≤ intLength ∧ s.length + strLast.length ≤ strlen strLast) := by
  rw [cutStr, forall₂_scalars_map]
  constructor
  · intro hcut s hs
    exact cutTo_iff.mp (hcut.2 s hs)
  · intro hroom
    exact ⟨shape_map _ mixData, fun s hs => cutTo_iff.mpr (hroom s hs)⟩

/-- Six characters cut to two become eight. -/
theorem cutStr_lengthens :
    ¬∀ (mixData : Nested Nat Text) (intLength : Int) (strLast : Text), 0 ≤ intLength →
      shape (cutStr mixData intLength strLast) = shape mixData ∧
        List.Forall₂ (CutTo intLength strLast) (scalars mixData)
          (scalars (cutStr mixData intLength strLast)) := by
  intro hall
  have hcut := (hall (.scalar ['a', 'b', 'c', 'd', 'e', 'f']) 2 ['.', '.', '.'] (by decide)).2
  have hone := (List.forall₂_cons.mp hcut).1.1
  have hvalue : cutText 2 ['.', '.', '.'] ['a', 'b', 'c', 'd', 'e', 'f'] =
      ['a', 'b', 'c', 'd', 'e', '.', '.', '.'] := by decide
  rw [hvalue] at hone
  exact absurd hone (by decide)

theorem length_dots : (chars "...").length = 3 := by simp [chars]

theorem strlen_dots : strlen (chars "...") = 3 := by
  rw [chars]
  decide

theorem length_cutText_dots_le_iff {intLength : Int} {s : Text} (h : intLength < s.length) :
    (cutText intLength (chars "...") s).length ≤ intLength ↔ 3 ≤ intLength := by
  rw [length_cutText_le_iff h, length_dots, strlen_dots]
  omega

section
variable {strVal1 strVal2 : Text} {intLength : Int} {strLast : Text}

theorem cbcutStr_first_long (h : intLength < strVal1.length) :
    cbcutStr strVal1 strVal2 intLength strLast = (cutText intLength strLast strVal1, []) := by
  rw [cbcutStr, if_pos h]

theorem cbcutStr_second_long (h : strVal1.length ≤ intLength) (hlong : intLength - strVal1.length < strVal2.length) :
    cbcutStr strVal1 strVal2 intLength strLast =
      (strVal1, cutText (intLength - strVal1.length) strLast strVal2) := by
  rw [cbcutStr, if_neg (Int.not_lt.mpr h)]
  exact if_pos hlong

theorem cbcutStr_fits (h : (strVal1.length + strVal2.length : Int) ≤ intLength) :
    cbcutStr strVal1 strVal2 intLength strLast = (strVal1, strVal2) := by
  rw [cbcutStr, if_neg (by omega)]
  exact if_neg (by omega)

/-- What comes first does not depend on what comes second. -/
theorem cbcutStr_fst : (cbcutStr strVal1 strVal2 intLength strLast).1 =
    if intLength < strVal1.length then cutText intLength strLast strVal1 else strVal1 := by
  by_cases h : intLength < strVal1.length
  · rw [cbcutStr_first_long h, if_pos h]
  · rw [cbcutStr, if_neg h, if_neg h]
    dsimp only
    split <;> rfl

end

/-- With three dots for the ellipsis, the two texts share the length asked for exactly if
    they fit, or if the one that is cut has room for the dots. -/
theorem cbcutStr_combines_iff (strVal1 strVal2 : Text) (intLength : Int) :
    Combines strVal1 strVal2 intLength ↔
      (strVal1.length + strVal2.length : Int) ≤ intLength ∨
      (intLength < strVal1.length ∧ 3 ≤ intLength) ∨
      (strVal1.length ≤ intLength ∧ intLength - strVal1.length < strVal2.length ∧
        3 ≤ intLength - strVal1.length) := by
  -- only the common length is ever missed
  have hlength : Combines strVal1 strVal2 intLength ↔
      ((cbcutStr strVal1 strVal2 intLength).1.length + (cbcutStr strVal1 strVal2 intLength).2.length : Int) ≤
        intLength := by
    constructor
    · exact fun h => h.1
    · intro h
      refine ⟨h, cbcutStr_fits, ?_, ?_⟩
      · intro hfits
        rw [cbcutStr_fst, if_neg (Int.not_lt.mpr hfits)]
      · intro other
        rw [cbcutStr_fst, cbcutStr_fst]
  rw [hlength]
  by_cases hfirst : intLength < strVal1.length
  · have hdots := length_cutText_dots_le_iff hfirst
    rw [cbcutStr_first_long hfirst]
    dsimp only [List.length_nil]
    omega
  · by_cases hsecond : intLength - strVal1.length < strVal2.length
    · have hdots := length_cutText_dots_le_iff hsecond
      rw [cbcutStr_second_long (Int.not_lt.mp hfirst) hsecond]
      dsimp only
      omega
    · have hfits : (strVal1.length + strVal2.length : Int) ≤ intLength := by omega
      rw [cbcutStr_fits hfits]
      exact iff_of_true hfits (.inl hfits)

/-- A second text of two characters has room for one, and comes out as three dots. -/
theorem cbcutStr_lengthens :
    ¬∀ (strVal1 strVal2 : Text) (intLength : Int), 0 ≤ intLength → Combines strVal1 strVal2 intLength := by
  intro hall
  have hlong := (hall ['a', 'b'] ['c', 'd'] 3 (by decide)).1
  have hvalue : cbcutStr ['a', 'b'] ['c', 'd'] 3 ['.', '.', '.'] = (['a', 'b'], ['.', '.', '.']) := by
    decide
  have hdots : chars "..." = ['.', '.', '.'] := by simp [chars]
  rw [hdots, hvalue] at hlong
  exact absurd hlong (by decide)

end RubbishStore.Util.CutStr
