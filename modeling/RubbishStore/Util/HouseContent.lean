import RubbishStore.Lib.Scan
import RubbishStore.Util.StrFilter
import Mathlib.Data.List.TakeWhile

/- `Util_StrFilter::house_content_filter`. The names of the opening and of the closing
   tags are listed by two expressions; a name that is opened without a closing tag left
   for it gets one at the end. Nothing is done where the two lists are equally long,
   whatever their names. And a text that is begun like an opening tag, with no `>` yet
   that the expression takes, is completed by the first closing tag that is added: one
   opening tag more, which is counted in the output only (`house_content_filter_iff`). -/
namespace RubbishStore.Util.StrFilter
open RubbishStore.Lib RubbishStore.Lib.Scan

/-- `[a-z]`, in either case -/
def letter (b : UInt8) : Bool := (65 ≤ b && b ≤ 90) || (97 ≤ b && b ≤ 122)

/-- A byte itself. -/
def byte (b : UInt8) : Re UInt8 := .atom (· == b)

/-- `[ ]*>`, as few spaces as possible. -/
def tagEnd : Re UInt8 := .seq (.star false (.atom (· == 32))) (byte 62)

/-- `(?: .*)?(?<![/|/ ])[ ]*>`: what the look-behind sees is the last byte of the group,
    which is none of `/`, `|` and space, or a letter of the name where the group is left
    out. -/
def afterName : Re UInt8 :=
  .alt tagEnd <| .seq (byte 32) <| .seq (.star false dot) <|
    .seq (.atom fun b => b != 47 && b != 124 && b != 32 && b != 10) tagEnd

/-- `#<([a-z]+)(?: .*)?(?<![/|/ ])[ ]*>#iU` -/
def openedPattern : Re UInt8 := .seq (byte 60) (.seq (.group (.plus false (.atom letter))) afterName)

/-- `#</([a-z]+)>#iU` -/
def closedPattern : Re UInt8 :=
  .seq (byte 60) (.seq (byte 47) (.seq (.group (.plus false (.atom letter))) (byte 62)))

/-- `$arrResult[1]` of `preg_match_all` -/
def pregMatchAll (r : Re UInt8) (html : Octets) : List Octets := scan (firstGroup r) 0 html

def closeTag (tag : Octets) : Octets := octets "</" ++ tag ++ octets ">"

/-- `$arrHtmlTags` -/
def arrHtmlTags : List Octets :=
  [octets "strong", octets "p", octets "a", octets "div", octets "tr", octets "td", octets "tbody",
    octets "table", octets "span"]

def strrpos (haystack needle : Octets) : Option Nat :=
  (List.range (haystack.length + 1)).reverse.find? fun i => Replace.startsWith id needle (haystack.drop i)

/-- A long text is cut off behind the last of the closing tags. -/
def cutOff (html : Octets) : Octets :=
  let closeTagPos := arrHtmlTags.foldl (fun (closeTagPos : Nat) tag =>
    let strTag := closeTag tag
    let pos := (strrpos html strTag).getD 0 + strTag.length
    if pos ≠ 0 ∧ closeTagPos < pos then pos else closeTagPos) 1
  html.take closeTagPos

/-- The loop over `$arrOpenedTags`. -/
def closeTags (html : Octets) : List Octets → List Octets → Octets
  | [], _ => html
  | tag :: opened, closed =>
    if closed.contains tag then closeTags html opened (closed.erase tag)
    else closeTags (html ++ closeTag tag) opened closed

def houseContentFilter (html : Octets) : Octets :=
  let html := if 65530 < html.length ∧ html.getLast? ≠ some 62 then cutOff html else html
  let opened := pregMatchAll openedPattern html
  let closed := pregMatchAll closedPattern html
  if closed.length = opened.length then html else closeTags html opened.reverse closed

/-! What the expressions take at the front of a text. -/

/-- What is behind spaces and a `>`. -/
def closeEnd : Octets → Option Octets
  | [] => none
  | b :: s => if b = 62 then some s else if b = 32 then closeEnd s else none

/-- What the look-behind may see. -/
def good (b : UInt8) : Bool := b != 47 && b != 124 && b != 32 && b != 10

/-- What is behind the first `>` of the line with such a byte in front of it, or in front
    of the spaces before it. -/
def bodyEnd : Octets → Option Octets
  | [] => none
  | b :: s => (if good b then closeEnd s else none).or (if b = 10 then none else bodyEnd s)

/-- What is behind an opening tag, from the end of its name on. -/
def nameEnd : Octets → Option Octets
  | [] => none
  | b :: s => (closeEnd (b :: s)).or (if b = 32 then bodyEnd s else none)

def openedAt : Octets → Option (Octets × Octets)
  | [] => none
  | b :: s =>
    if b = 60 ∧ s.takeWhile letter ≠ [] then
      (nameEnd (s.dropWhile letter)).map fun rest => (s.takeWhile letter, rest)
    else none

/-- A `>` at the front. -/
def gtEnd : Octets → Option Octets
  | [] => none
  | b :: s => if b = 62 then some s else none

def closedAt : Octets → Option (Octets × Octets)
  | b :: c :: s =>
    if b = 60 ∧ c = 47 ∧ s.takeWhile letter ≠ [] then
      (gtEnd (s.dropWhile letter)).map fun rest => (s.takeWhile letter, rest)
    else none
  | _ => none

section
variable (s : Octets) (groups : List Octets)

theorem head?_gt : ((byte 62).ends ⟨s, groups⟩).head? = (gtEnd s).map fun rest => ⟨rest, groups⟩ := by
  cases s with
  | nil => rfl
  | cons b s =>
    rw [byte, Re.head?_ends_atom_cons, gtEnd]
    by_cases hb : b = 62
    · rw [if_pos (beq_iff_eq.mpr hb), if_pos hb]
      rfl
    · rw [if_neg (mt beq_iff_eq.mp hb), if_neg hb]
      rfl

theorem head?_tagEnd : (tagEnd.ends ⟨s, groups⟩).head? = (closeEnd s).map fun rest => ⟨rest, groups⟩ := by
  induction s with
  | nil => rfl
  | cons b s ih =>
    rw [tagEnd, Re.head?_ends_seq] at ih ⊢
    rw [Re.ends_lazy_cons, List.findSome?_cons, byte, Re.head?_ends_atom_cons, closeEnd]
    by_cases hgt : b = 62
    · rw [if_pos (beq_iff_eq.mpr hgt), if_pos hgt]
      rfl
    · rw [if_neg (mt beq_iff_eq.mp hgt), if_neg hgt]
      by_cases hspace : b = 32
      · rw [if_pos (beq_iff_eq.mpr hspace), if_pos hspace]
        exact ih
      · rw [if_neg (mt beq_iff_eq.mp hspace), if_neg hspace]
        rfl

/-- The `.*` of the group and its last byte. -/
theorem head?_body :
    ((Re.seq (.star false dot) (.seq (.atom fun b => b != 47 && b != 124 && b != 32 && b != 10) tagEnd)).ends
      ⟨s, groups⟩).head? = (bodyEnd s).map fun rest => ⟨rest, groups⟩ := by
  induction s with
  | nil => rfl
  | cons b s ih =>
    rw [Re.head?_ends_seq] at ih ⊢
    rw [dot, Re.ends_lazy_cons, List.findSome?_cons, Re.head?_ends_atom_seq_cons, head?_tagEnd, bodyEnd, good]
    have hrest : List.findSome? (fun next : Re.Position UInt8 =>
          ((Re.seq (.atom fun b => b != 47 && b != 124 && b != 32 && b != 10) tagEnd).ends next).head?)
          (if (b != 10) = true then (Re.star false (.atom (· != 10))).ends ⟨s, groups⟩ else []) =
        (if b = 10 then none else bodyEnd s).map fun rest => ⟨rest, groups⟩ := by
      by_cases hline : b = 10
      · rw [if_neg (by simp [hline]), if_pos hline]
        rfl
      · rw [if_pos (bne_iff_ne.mpr hline), if_neg hline]
        exact ih
    rw [hrest]
    cases b != 47 && b != 124 && b != 32 && b != 10 with
    | false => rfl
    | true =>
      cases closeEnd s with
      | none => rfl
      | some rest => rfl

theorem head?_afterName : (afterName.ends ⟨s, groups⟩).head? = (nameEnd s).map fun rest => ⟨rest, groups⟩ := by
  have halt : (afterName.ends ⟨s, groups⟩).head? = (tagEnd.ends ⟨s, groups⟩).head?.or
      ((Re.seq (byte 32) (.seq (.star false dot)
        (.seq (.atom fun b => b != 47 && b != 124 && b != 32 && b != 10) tagEnd))).ends ⟨s, groups⟩).head? :=
    List.head?_append
  rw [halt, head?_tagEnd]
  cases s with
  | nil => rfl
  | cons b s =>
    rw [byte, Re.head?_ends_atom_seq_cons, head?_body, nameEnd]
    by_cases hspace : b = 32
    · rw [if_pos (beq_iff_eq.mpr hspace), if_pos hspace, Option.map_or]
    · rw [if_neg (mt beq_iff_eq.mp hspace), if_neg hspace, Option.or_none, Option.or_none]

end

theorem letter_ne {b c : UInt8} (hb : letter b = true) (hc : letter c = false) : b ≠ c := by
  rintro rfl
  rw [hb] at hc
  cases hc

theorem nameEnd_letter (b : UInt8) (s : Octets) (hb : letter b = true) : nameEnd (b :: s) = none := by
  rw [nameEnd, closeEnd, if_neg (letter_ne hb rfl), if_neg (letter_ne hb rfl), if_neg (letter_ne hb rfl)]
  rfl

theorem firstGroup_openedPattern : firstGroup openedPattern = openedAt := by
  funext s
  rw [firstGroup, openedPattern, byte]
  cases s with
  | nil => rfl
  | cons b s =>
    rw [Re.head?_ends_atom_seq_cons, Re.head?_ends_word head?_afterName nameEnd_letter, openedAt]
    by_cases hlt : b = 60
    · rw [if_pos (beq_iff_eq.mpr hlt)]
      by_cases hname : s.takeWhile letter = []
      · rw [if_pos hname, if_neg fun h => h.2 hname]
        rfl
      · rw [if_neg hname, if_pos ⟨hlt, hname⟩, Option.map_map]
        rfl
    · rw [if_neg (mt beq_iff_eq.mp hlt), if_neg fun h => hlt h.1]
      rfl

theorem firstGroup_closedPattern : firstGroup closedPattern = closedAt := by
  funext s
  rw [firstGroup, closedPattern]
  have hletter : ∀ b s, letter b = true → gtEnd (b :: s) = none := fun b s hb => if_neg (letter_ne hb rfl)
  match s with
  | [] => rfl
  | [b] =>
    rw [byte, byte, Re.head?_ends_atom_seq_cons, Re.head?_ends_atom_seq_nil, ite_self]
    rfl
  | b :: c :: s =>
    have hword := Re.head?_ends_word head?_gt hletter s
    rw [byte] at hword
    rw [byte, byte, byte, Re.head?_ends_atom_seq_cons, Re.head?_ends_atom_seq_cons, hword, closedAt]
    by_cases hlt : b = 60
    · by_cases hslash : c = 47
      · rw [if_pos (beq_iff_eq.mpr hlt), if_pos (beq_iff_eq.mpr hslash)]
        by_cases hname : s.takeWhile letter = []
        · rw [if_pos hname, if_neg fun h => h.2.2 hname]
          rfl
        · rw [if_neg hname, if_pos ⟨hlt, hslash, hname⟩, Option.map_map]
          rfl
      · rw [if_neg (mt beq_iff_eq.mp hslash), ite_self, if_neg fun h => hslash h.2.1]
        rfl
    · rw [if_neg (mt beq_iff_eq.mp hlt), if_neg fun h => hlt h.1]
      rfl

/-! Closing tags behind a text. -/

/-- The name of a tag. -/
def IsName (name : Octets) : Prop := name ≠ [] ∧ ∀ b ∈ name, letter b = true

theorem closeTag_append (name rest : Octets) : closeTag name ++ rest = 60 :: 47 :: (name ++ 62 :: rest) := by
  simp [closeTag, octets]

theorem closeEnd_append (s z : Octets) : closeEnd (s ++ 60 :: z) = (closeEnd s).map (· ++ 60 :: z) := by
  induction s with
  | nil => rfl
  | cons b s ih =>
    rw [List.cons_append, closeEnd, closeEnd, ih]
    split
    · rfl
    · split
      · rfl
      · rfl

theorem bodyEnd_append_some {s rest : Octets} (h : bodyEnd s = some rest) (z : Octets) :
    bodyEnd (s ++ 60 :: z) = some (rest ++ 60 :: z) := by
  induction s with
  | nil => cases h
  | cons b s ih =>
    rw [bodyEnd, Option.or_eq_some_iff] at h
    rw [List.cons_append, bodyEnd, closeEnd_append, Option.or_eq_some_iff]
    rcases h with h | ⟨hnone, h⟩
    · left
      split at h
      · next hgood =>
        rw [if_pos hgood, h]
        rfl
      · cases h
    · right
      constructor
      · split at hnone
        · next hgood =>
          rw [if_pos hgood, hnone]
          rfl
        · next hgood => exact if_neg hgood
      · split at h
        · cases h
        · next hline =>
          rw [if_neg hline]
          exact ih h

theorem good_of_letter : ∀ b, letter b = true → good b = true ∧ b ≠ 10 :=
  forall_byte (by decide +kernel)

/-- A name in a closing tag has a byte in front of the `>` that the look-behind takes. -/
theorem bodyEnd_name {name : Octets} (h : IsName name) (rest : Octets) : bodyEnd (name ++ 62 :: rest) = some rest := by
  obtain ⟨hne, hletters⟩ := h
  induction name with
  | nil => exact absurd rfl hne
  | cons b name ih =>
    obtain ⟨hb, hletters⟩ := List.forall_mem_cons.mp hletters
    obtain ⟨hgood, hline⟩ := good_of_letter b hb
    rw [List.cons_append, bodyEnd, if_pos hgood, if_neg hline]
    cases name with
    | nil => rfl
    | cons c name =>
      have hc : letter c = true := hletters c List.mem_cons_self
      rw [ih (List.cons_ne_nil c name) hletters, List.cons_append, closeEnd, if_neg (letter_ne hc rfl),
        if_neg (letter_ne hc rfl)]
      rfl

theorem bodyEnd_closeTag {name : Octets} (h : IsName name) (rest : Octets) :
    bodyEnd (closeTag name ++ rest) = some rest := by
  rw [closeTag_append, bodyEnd, bodyEnd, bodyEnd_name h]
  rfl

/-- A line without an end is completed by the first closing tag. -/
theorem bodyEnd_append_none {s : Octets} (h : bodyEnd s = none) {name : Octets} (hname : IsName name) (rest : Octets) :
    bodyEnd (s ++ (closeTag name ++ rest)) = if 10 ∈ s then none else some rest := by
  induction s with
  | nil => exact bodyEnd_closeTag hname rest
  | cons b s ih =>
    rw [bodyEnd, Option.or_eq_none_iff] at h
    obtain ⟨hend, hbody⟩ := h
    have hclose : closeEnd (s ++ (closeTag name ++ rest)) = (closeEnd s).map (· ++ (closeTag name ++ rest)) := by
      rw [closeTag_append]
      exact closeEnd_append s _
    have hnone : (if good b then closeEnd (s ++ (closeTag name ++ rest)) else none) = none := by
      split at hend
      · rw [hclose, hend, Option.map_none, ite_self]
      · next hgood => exact if_neg hgood
    rw [List.cons_append, bodyEnd, hnone, Option.none_or]
    by_cases hline : b = 10
    · rw [if_pos hline, if_pos (List.mem_cons.mpr (.inl hline.symm))]
    · rw [if_neg hline] at hbody ⊢
      rw [ih hbody]
      exact if_congr (by rw [List.mem_cons, or_iff_right (Ne.symm hline)]) rfl rfl

/-- A text that is begun like an opening tag, with a space behind the name, and goes on to
    the end of a line that does not end. -/
def hanging : Octets → Option Octets
  | [] => none
  | b :: s =>
    if b = 60 ∧ s.takeWhile letter ≠ [] ∧ (s.dropWhile letter).head? = some 32 ∧ 10 ∉ s.dropWhile letter then
      some (s.takeWhile letter)
    else none

/-- The first such text outside the opening tags. -/
def pending (html : Octets) : Option Octets := (misses (firstGroup openedPattern) 0 html).findSome? hanging

theorem takeWhile_letter_append (s z : Octets) : (s ++ 60 :: z).takeWhile letter = s.takeWhile letter := by
  induction s with
  | nil => rfl
  | cons b s ih =>
    rw [List.cons_append, List.takeWhile_cons, List.takeWhile_cons, ih]

theorem dropWhile_letter_append (s z : Octets) : (s ++ 60 :: z).dropWhile letter = s.dropWhile letter ++ 60 :: z := by
  induction s with
  | nil => rfl
  | cons b s ih =>
    rw [List.cons_append, List.dropWhile_cons, List.dropWhile_cons, ih]
    split
    · rfl
    · rfl

theorem nameEnd_append_some {s rest : Octets} (h : nameEnd s = some rest) (z : Octets) :
    nameEnd (s ++ 60 :: z) = some (rest ++ 60 :: z) := by
  cases s with
  | nil => cases h
  | cons b s =>
    rw [nameEnd, Option.or_eq_some_iff] at h
    rw [List.cons_append, nameEnd, ← List.cons_append, closeEnd_append, Option.or_eq_some_iff]
    rcases h with h | ⟨hnone, h⟩
    · left
      rw [h]
      rfl
    · refine .inr ⟨by rw [hnone]; rfl, ?_⟩
      split at h
      · next hspace =>
        rw [if_pos hspace]
        exact bodyEnd_append_some h z
      · cases h

theorem nameEnd_append_none {s : Octets} (h : nameEnd s = none) {name : Octets} (hname : IsName name)
    (rest : Octets) : nameEnd (s ++ (closeTag name ++ rest)) =
      if s.head? = some 32 ∧ 10 ∉ s then some rest else none := by
  cases s with
  | nil =>
    rw [closeTag_append]
    rfl
  | cons b s =>
    rw [nameEnd, Option.or_eq_none_iff] at h
    obtain ⟨hend, hbody⟩ := h
    have hclose : closeEnd (b :: s ++ (closeTag name ++ rest)) = none := by
      rw [closeTag_append, closeEnd_append, hend]
      rfl
    rw [List.cons_append, nameEnd, ← List.cons_append, hclose, Option.none_or, List.head?_cons]
    by_cases hspace : b = 32
    · rw [if_pos hspace] at hbody ⊢
      rw [bodyEnd_append_none hbody hname]
      have hline : 10 ∈ b :: s ↔ 10 ∈ s := by
        rw [List.mem_cons, hspace]
        exact or_iff_right (by decide)
      by_cases hmem : 10 ∈ s
      · rw [if_pos hmem, if_neg fun hand => hand.2 (hline.mpr hmem)]
      · rw [if_neg hmem, if_pos ⟨by rw [hspace], mt hline.mp hmem⟩]
    · rw [if_neg hspace, if_neg fun hand => hspace (Option.some.inj hand.1)]

theorem openedAt_append_some {s rest name : Octets} (h : openedAt s = some (name, rest)) (z : Octets) :
    openedAt (s ++ 60 :: z) = some (name, rest ++ 60 :: z) := by
  cases s with
  | nil => cases h
  | cons b s =>
    rw [openedAt] at h
    rw [List.cons_append, openedAt, takeWhile_letter_append, dropWhile_letter_append]
    split at h
    · next hfront =>
      obtain ⟨end', hend, hfound⟩ := Option.map_eq_some_iff.mp h
      cases hfound
      rw [if_pos hfront, nameEnd_append_some hend]
      rfl
    · cases h

/-- A closing tag completes what is hanging, and nothing else. -/
theorem openedAt_append_none {t : Octets} (hne : t ≠ []) (h : openedAt t = none) {name : Octets} (hname : IsName name)
    (rest : Octets) : openedAt (t ++ (closeTag name ++ rest)) = (hanging t).map fun hung => (hung, rest) := by
  cases t with
  | nil => exact absurd rfl hne
  | cons b s =>
    have hz : closeTag name ++ rest = 60 :: 47 :: (name ++ 62 :: rest) := closeTag_append name rest
    rw [openedAt] at h
    rw [List.cons_append, openedAt, hz, takeWhile_letter_append, dropWhile_letter_append, hanging]
    by_cases hfront : b = 60 ∧ s.takeWhile letter ≠ []
    · rw [if_pos hfront] at h ⊢
      rw [← hz, nameEnd_append_none (Option.map_eq_none_iff.mp h) hname]
      by_cases hline : (s.dropWhile letter).head? = some 32 ∧ 10 ∉ s.dropWhile letter
      · rw [if_pos hline, if_pos ⟨hfront.1, hfront.2, hline⟩]
        rfl
      · rw [if_neg hline, if_neg fun hand => hline hand.2.2]
        rfl
    · rw [if_neg hfront, if_neg fun hand => hfront ⟨hand.1, hand.2.1⟩]
      rfl

theorem gtEnd_append (s z : Octets) : gtEnd (s ++ 60 :: z) = (gtEnd s).map (· ++ 60 :: z) := by
  cases s with
  | nil => rfl
  | cons b s =>
    rw [List.cons_append, gtEnd, gtEnd]
    split
    · rfl
    · rfl

/-- Closing tags stay as they are, and what is begun like one is not completed. -/
theorem closedAt_append {s : Octets} (hne : s ≠ []) (z : Octets) :
    closedAt (s ++ 60 :: z) = (closedAt s).map fun found => (found.1, found.2 ++ 60 :: z) := by
  match s with
  | [] => exact absurd rfl hne
  | [b] =>
    have hslash : ¬(b = 60 ∧ (60 : UInt8) = 47 ∧ z.takeWhile letter ≠ []) := fun hand => absurd hand.2.1 (by decide)
    exact if_neg hslash
  | b :: c :: s =>
    rw [List.cons_append, List.cons_append, closedAt, closedAt, takeWhile_letter_append, dropWhile_letter_append,
      gtEnd_append]
    split
    · rw [Option.map_map, Option.map_map]
      rfl
    · rfl

/-! Nothing opens behind what is hanging. -/

theorem bodyEnd_isSome_of_suffix {t w : Octets} (ht : t <:+ w) (hw : 10 ∉ w) (h : (bodyEnd t).isSome = true) :
    (bodyEnd w).isSome = true := by
  induction w with
  | nil =>
    rw [List.suffix_nil.mp ht] at h
    exact h
  | cons b w ih =>
    rcases List.suffix_cons_iff.mp ht with rfl | ht
    · exact h
    · rw [List.mem_cons, not_or] at hw
      rw [bodyEnd, if_neg (Ne.symm hw.1), Option.isSome_or, ih ht hw.2, Bool.or_true]

theorem bodyEnd_of_openedAt {t : Octets} (h : (openedAt t).isSome = true) (hline : 10 ∉ t) :
    (bodyEnd t).isSome = true := by
  cases t with
  | nil => cases h
  | cons b s =>
    rw [openedAt] at h
    split at h
    · next hfront =>
      rw [Option.isSome_map] at h
      have hsplit := List.takeWhile_append_dropWhile (p := letter) (l := s)
      have hlast := List.dropLast_append_getLast hfront.2
      have hletter := List.mem_takeWhile_imp (List.getLast_mem hfront.2)
      generalize (s.takeWhile letter).getLast hfront.2 = a at hlast hletter
      generalize s.dropWhile letter = v at h hsplit
      -- from the last byte of the name on
      have hsuffix : a :: v <:+ b :: s := by
        have hs : (s.takeWhile letter).dropLast ++ a :: v = s := by
          rw [List.append_cons, hlast, hsplit]
        exact ⟨b :: (s.takeWhile letter).dropLast, congrArg (b :: ·) hs⟩
      obtain ⟨hgood, hbreak⟩ := good_of_letter a hletter
      refine bodyEnd_isSome_of_suffix hsuffix hline ?_
      have hv : 10 ∉ v := fun hmem => hline (hsuffix.subset (List.mem_cons_of_mem a hmem))
      rw [bodyEnd, if_pos hgood, if_neg hbreak, Option.isSome_or, Bool.or_eq_true]
      cases v with
      | nil => cases h
      | cons c w =>
        rw [nameEnd, Option.isSome_or, Bool.or_eq_true] at h
        refine h.imp_right fun h => ?_
        split at h
        · exact bodyEnd_isSome_of_suffix (List.suffix_cons c w) hv h
        · cases h
    · cases h

/-- What is hanging: a name, a space and the rest of the text, in which no tag ends. -/
theorem hanging_line {a : UInt8} {s hung : Octets} (hnone : openedAt (a :: s) = none)
    (h : hanging (a :: s) = some hung) :
    ∃ w, s = s.takeWhile letter ++ 32 :: w ∧ 10 ∉ w ∧ bodyEnd w = none := by
  rw [hanging] at h
  split at h
  · next hfront =>
    obtain ⟨hlt, hname, hspace, hline⟩ := hfront
    obtain ⟨w, hw⟩ := List.head?_eq_some_iff.mp hspace
    rw [openedAt, if_pos ⟨hlt, hname⟩, Option.map_eq_none_iff, hw, nameEnd, Option.or_eq_none_iff,
      if_pos rfl] at hnone
    rw [hw] at hline
    refine ⟨w, ?_, fun hmem => hline (List.mem_cons_of_mem 32 hmem), hnone.2⟩
    rw [← hw, List.takeWhile_append_dropWhile]
  · cases h

theorem startsWith_of_openedAt {t : Octets} (h : (openedAt t).isSome = true) : Replace.startsWith id [60] t = true := by
  cases t with
  | nil => cases h
  | cons b t =>
    rw [openedAt] at h
    split at h
    · next hb =>
      rw [hb.1]
      rfl
    · cases h

theorem lt_not_mem_letters (s : Octets) : 60 ∉ s.takeWhile letter := by
  intro hmem
  have hlt : letter 60 = true := List.mem_takeWhile_imp hmem
  exact absurd hlt (by decide)

theorem none_behind_hanging {a : UInt8} {s hung : Octets} (hnone : openedAt (a :: s) = none)
    (h : hanging (a :: s) = some hung) : ∀ t, t <:+ s → openedAt t = none := by
  obtain ⟨w, hsplit, hline, hbody⟩ := hanging_line hnone h
  have hletters : ∀ b ∈ [(60 : UInt8)], id b ∉ (s.takeWhile letter).map id := by
    intro b hb
    rw [List.map_id, List.mem_singleton.mp hb]
    exact lt_not_mem_letters s
  intro t ht
  by_contra hopened
  rw [← Ne, ← Option.isSome_iff_ne_none] at hopened
  -- an opening tag starts behind the name and the space
  have hstart := startsWith_of_openedAt hopened
  rw [hsplit] at ht
  have hbehind := Replace.suffix_of_startsWith (List.cons_ne_nil _ _) hletters ht hstart
  rcases List.suffix_cons_iff.mp hbehind with rfl | hinside
  · cases hstart
  · have hsome := bodyEnd_isSome_of_suffix hinside hline
      (bodyEnd_of_openedAt hopened fun hmem => hline (hinside.subset hmem))
    rw [hbody] at hsome
    cases hsome

/-! The lists of the output. -/

def opened (html : Octets) : List Octets := pregMatchAll openedPattern html

def closed (html : Octets) : List Octets := pregMatchAll closedPattern html

theorem advances_openedAt : Advances openedAt := by
  rw [← firstGroup_openedPattern]
  exact advances_firstGroup (by decide)

theorem advances_closedAt : Advances closedAt := by
  rw [← firstGroup_closedPattern]
  exact advances_firstGroup (by decide)

theorem opened_eq (html : Octets) : opened html = scan openedAt 0 html := by
  rw [opened, pregMatchAll, firstGroup_openedPattern]

theorem closed_eq (html : Octets) : closed html = scan closedAt 0 html := by
  rw [closed, pregMatchAll, firstGroup_closedPattern]

theorem scan_openedAt_skip {u : Octets} (h : 60 ∉ u) (s : Octets) :
    scan openedAt 0 (u ++ s) = scan openedAt 0 s := by
  induction u with
  | nil => rfl
  | cons b u ih =>
    rw [List.mem_cons, not_or] at h
    have hnone : openedAt (b :: (u ++ s)) = none := if_neg fun hand => h.1 hand.1.symm
    rw [List.cons_append, scan_miss hnone, ih h.2]

theorem IsName.not_mem {name : Octets} (h : IsName name) : 60 ∉ name := by
  intro hmem
  have hlt := h.2 60 hmem
  exact absurd hlt (by decide)

/-- Closing tags open nothing. -/
theorem scan_openedAt_closeTags {names : List Octets} (h : ∀ name ∈ names, IsName name) :
    scan openedAt 0 (names.flatMap closeTag) = [] := by
  induction names with
  | nil => rfl
  | cons name names ih =>
    obtain ⟨hname, hnames⟩ := List.forall_mem_cons.mp h
    have hfront : openedAt (60 :: 47 :: (name ++ 62 :: names.flatMap closeTag)) = none := rfl
    have hrest : 60 ∉ 47 :: (name ++ [62]) := by
      rw [List.mem_cons, List.mem_append, List.mem_singleton, not_or, not_or]
      exact ⟨by decide, hname.not_mem, by decide⟩
    have hskip := scan_openedAt_skip hrest (names.flatMap closeTag)
    rw [List.flatMap_cons, closeTag_append, scan_miss hfront, ← ih hnames, ← hskip, List.cons_append,
      List.append_assoc, List.singleton_append]

theorem closedAt_closeTag {name : Octets} (h : IsName name) (rest : Octets) :
    closedAt (closeTag name ++ rest) = some (name, rest) := by
  have htake : (name ++ 62 :: rest).takeWhile letter = name := by
    rw [List.takeWhile_append_of_pos h.2, List.takeWhile_cons_of_neg (by decide), List.append_nil]
  have hdrop : (name ++ 62 :: rest).dropWhile letter = 62 :: rest := by
    rw [List.dropWhile_append_of_pos h.2, List.dropWhile_cons_of_neg (by decide)]
  rw [closeTag_append, closedAt, htake, hdrop, if_pos ⟨rfl, rfl, h.1⟩]
  rfl

theorem scan_closedAt_closeTags {names : List Octets} (h : ∀ name ∈ names, IsName name) :
    scan closedAt 0 (names.flatMap closeTag) = names := by
  induction names with
  | nil => rfl
  | cons name names ih =>
    obtain ⟨hname, hnames⟩ := List.forall_mem_cons.mp h
    rw [List.flatMap_cons, scan_hit advances_closedAt (closedAt_closeTag hname _), ih hnames]

/-- Of texts that are no opening tags a closing tag completes those that hang. -/
theorem findSome?_openedAt_append {ts : List Octets} (h : ∀ t ∈ ts, t ≠ [] ∧ openedAt t = none) {name : Octets}
    (hname : IsName name) (rest : Octets) : ts.findSome? (fun t => openedAt (t ++ (closeTag name ++ rest))) =
      (ts.findSome? hanging).map fun hung => (hung, rest) := by
  induction ts with
  | nil => rfl
  | cons t ts ih =>
    obtain ⟨ht, hts⟩ := List.forall_mem_cons.mp h
    rw [List.findSome?_cons, List.findSome?_cons, openedAt_append_none ht.1 ht.2 hname, ih hts]
    cases hanging t with
    | none => rfl
    | some hung => rfl

/-- With closing tags at the end there is at most one opening tag more. -/
theorem opened_append {names : List Octets} (hne : names ≠ []) (h : ∀ name ∈ names, IsName name) (html : Octets) :
    opened (html ++ names.flatMap closeTag) = opened html ++ (pending html).toList := by
  cases names with
  | nil => exact absurd rfl hne
  | cons name names =>
    obtain ⟨hname, hnames⟩ := List.forall_mem_cons.mp h
    have hall := scan_openedAt_closeTags h
    rw [List.flatMap_cons] at hall
    have hfirst := findSome?_openedAt_append
      (fun t ht => none_of_mem_misses advances_openedAt (s := html) ht) hname (names.flatMap closeTag)
    rw [List.flatMap_cons, opened_eq, opened_eq, pending, firstGroup_openedPattern, scan_append advances_openedAt,
      hfirst]
    · cases (misses openedAt 0 html).findSome? hanging with
      | none => exact congrArg _ hall
      | some hung =>
        exact congrArg (fun more => scan openedAt 0 html ++ hung :: more) (scan_openedAt_closeTags hnames)
    · intro s found behind hfound
      rw [closeTag_append]
      exact openedAt_append_some hfound _
    · intro a s hmiss hcompleted
      rw [openedAt_append_none (List.cons_ne_nil a s) hmiss hname] at hcompleted
      cases hhung : hanging (a :: s) with
      | none =>
        rw [hhung] at hcompleted
        exact absurd rfl hcompleted
      | some hung => exact scan_eq_nil (none_behind_hanging hmiss hhung)

theorem closed_append {names : List Octets} (h : ∀ name ∈ names, IsName name) (html : Octets) :
    closed (html ++ names.flatMap closeTag) = closed html ++ names := by
  cases names with
  | nil => rw [List.flatMap_nil, List.append_nil, List.append_nil]
  | cons name names =>
    have hz : (name :: names).flatMap closeTag = 60 :: 47 :: (name ++ 62 :: names.flatMap closeTag) := by
      rw [List.flatMap_cons, closeTag_append]
    have hall := scan_closedAt_closeTags h
    rw [closed_eq, closed_eq]
    rw [hz] at hall ⊢
    have hfirst : (misses closedAt 0 html).findSome?
        (fun t => closedAt (t ++ 60 :: 47 :: (name ++ 62 :: names.flatMap closeTag))) = none := by
      rw [List.findSome?_eq_none_iff]
      intro t ht
      obtain ⟨hempty, hmiss⟩ := none_of_mem_misses advances_closedAt ht
      rw [closedAt_append hempty, hmiss]
      rfl
    rw [scan_append advances_closedAt, hfirst]
    · exact congrArg _ hall
    · intro s found behind hfound
      have hne : s ≠ [] := by
        rintro rfl
        cases hfound
      rw [closedAt_append hne, hfound]
      rfl
    · intro a s hmiss hcompleted
      rw [closedAt_append (List.cons_ne_nil a s), hmiss] at hcompleted
      exact absurd rfl hcompleted

/-! What is left to be closed. -/

/-- The names that get a closing tag. -/
def missing : List Octets → List Octets → List Octets
  | [], _ => []
  | tag :: opened, closed =>
    if closed.contains tag then missing opened (closed.erase tag) else tag :: missing opened closed

theorem closeTags_eq (html : Octets) (opened closed : List Octets) :
    closeTags html opened closed = html ++ (missing opened closed).flatMap closeTag := by
  induction opened generalizing html closed with
  | nil => exact (List.append_nil html).symm
  | cons tag opened ih =>
    rw [closeTags, missing]
    split
    · exact ih html _
    · rw [ih, List.flatMap_cons, List.append_assoc]

theorem count_missing (opened closed : List Octets) (name : Octets) :
    (missing opened closed).count name = opened.count name - closed.count name := by
  induction opened generalizing closed with
  | nil => rw [missing, List.count_nil, Nat.zero_sub]
  | cons tag opened ih =>
    rw [missing]
    split
    · next hmem =>
      have hpos : 0 < closed.count tag := List.count_pos_iff.mpr (List.contains_iff_mem.mp hmem)
      rw [ih, List.count_erase, List.count_cons]
      split
      · next htag =>
        rw [beq_iff_eq] at htag
        rw [htag] at hpos
        omega
      · rw [Nat.add_zero, Nat.sub_zero]
    · next hmem =>
      have hzero : closed.count tag = 0 := List.count_eq_zero.mpr fun h => hmem (List.contains_iff_mem.mpr h)
      rw [List.count_cons, ih, List.count_cons]
      split
      · next htag =>
        rw [beq_iff_eq] at htag
        rw [htag] at hzero
        omega
      · rfl

theorem isName_of_mem_opened {html name : Octets} (h : name ∈ opened html) : IsName name := by
  rw [opened_eq] at h
  obtain ⟨t, rest, hfound⟩ := mem_scan advances_openedAt h
  cases t with
  | nil => cases hfound
  | cons b s =>
    rw [openedAt] at hfound
    split at hfound
    · next hfront =>
      obtain ⟨rest', -, hsome⟩ := Option.map_eq_some_iff.mp hfound
      cases hsome
      exact ⟨hfront.2, fun b hb => List.mem_takeWhile_imp hb⟩
    · cases hfound

theorem mem_of_mem_missing {opened closed : List Octets} {name : Octets} (h : name ∈ missing opened closed) :
    name ∈ opened := by
  induction opened generalizing closed with
  | nil => cases h
  | cons tag opened ih =>
    rw [missing] at h
    split at h
    · exact List.mem_cons_of_mem tag (ih h)
    · rcases List.mem_cons.mp h with rfl | h
      · exact List.mem_cons_self
      · exact List.mem_cons_of_mem tag (ih h)

/-- The names that a text gets closing tags for. -/
def added (html : Octets) : List Octets :=
  if (closed html).length = (opened html).length then [] else missing (opened html).reverse (closed html)

theorem isName_of_mem_added {html name : Octets} (h : name ∈ added html) : IsName name := by
  rw [added] at h
  split at h
  · cases h
  · exact isName_of_mem_opened (List.mem_reverse.mp (mem_of_mem_missing h))

theorem houseContentFilter_eq {html : Octets} (h : html.length ≤ 65530) :
    houseContentFilter html = html ++ (added html).flatMap closeTag := by
  have hshort : ¬(65530 < html.length ∧ html.getLast? ≠ some 62) := fun hand => Nat.not_lt_of_le h hand.1
  rw [houseContentFilter, if_neg hshort, ← opened, ← closed, added]
  split
  · exact (List.append_nil html).symm
  · exact closeTags_eq html _ _

/-- A name that has not more closing than opening tags in the text has as many in the
    output. -/
def Balanced (html : Octets) : Prop :=
  ∀ name, (closed html).count name ≤ (opened html).count name →
    (closed (houseContentFilter html)).count name = (opened (houseContentFilter html)).count name

/-- The output is the text and closing tags. -/
def OnlyCloses (html : Octets) : Prop :=
  ∃ names : List Octets, (∀ name ∈ names, IsName name) ∧ houseContentFilter html = html ++ names.flatMap closeTag

theorem onlyCloses {html : Octets} (h : html.length ≤ 65530) : OnlyCloses html :=
  ⟨added html, fun _ hname => isName_of_mem_added hname, houseContentFilter_eq h⟩

/-- Equally many tags: nothing is added. -/
theorem balanced_iff_of_eq {html : Octets} (h : html.length ≤ 65530)
    (heq : (closed html).length = (opened html).length) :
    Balanced html ↔ ∀ name, (closed html).count name = (opened html).count name := by
  have hout : houseContentFilter html = html := by
    rw [houseContentFilter_eq h, added, if_pos heq, List.flatMap_nil, List.append_nil]
  rw [Balanced, hout]
  refine ⟨fun hbalanced => ?_, fun hall name _ => hall name⟩
  -- no name has fewer closing tags, so none has more
  have hle : ∀ name ∈ opened html, (opened html).count name ≤ (closed html).count name := by
    intro name _
    by_contra hlt
    have hcount := hbalanced name (by omega)
    omega
  have hperm : (opened html).Perm (closed html) :=
    (List.subperm_ext_iff.mpr hle).perm_of_length_le (Nat.le_of_eq heq)
  exact fun name => (hperm.count_eq name).symm

theorem balanced_iff_of_ne {html : Octets} (h : html.length ≤ 65530)
    (hne : (closed html).length ≠ (opened html).length) :
    Balanced html ↔ ∀ name, (closed html).count name < (opened html).count name →
      ∀ hung, pending html = some hung → (opened html).count hung < (closed html).count hung := by
  have hadded : added html = missing (opened html).reverse (closed html) := if_neg hne
  have hcount : ∀ name, (added html).count name = (opened html).count name - (closed html).count name := by
    intro name
    rw [hadded, count_missing, List.count_reverse]
  have hnames : ∀ name ∈ added html, IsName name := fun name => isName_of_mem_added
  rw [Balanced, houseContentFilter_eq h, closed_append hnames]
  by_cases hnil : added html = []
  · -- no name lacks a closing tag
    have hnone : ∀ name, (opened html).count name ≤ (closed html).count name := by
      intro name
      have hzero := hcount name
      rw [hnil, List.count_nil] at hzero
      omega
    rw [hnil, List.flatMap_nil, List.append_nil, List.append_nil]
    exact iff_of_true (fun name hle => Nat.le_antisymm hle (hnone name))
      fun name hlt => absurd (hnone name) (Nat.not_le_of_lt hlt)
  · obtain ⟨missed, hmissed⟩ := List.exists_mem_of_ne_nil _ hnil
    have hlt : (closed html).count missed < (opened html).count missed := by
      have hpos := List.count_pos_iff.mpr hmissed
      rw [hcount] at hpos
      omega
    rw [opened_append hnil hnames]
    simp only [List.count_append, hcount]
    constructor
    · intro hbalanced name _ hung hpending
      by_contra hle
      have hsame := hbalanced hung (by omega)
      rw [hpending, Option.toList_some, List.count_singleton_self] at hsame
      omega
    · intro hall name hle
      have hzero : (pending html).toList.count name = 0 := by
        rw [List.count_eq_zero, Option.mem_toList]
        intro hpending
        have hmore := hall missed hlt name hpending
        omega
      omega

/-- **Every name is balanced in the output exactly if** it is in the text already, where
    the text has as many closing as opening tags; and otherwise, if some name lacks a
    closing tag, if nothing hangs that the added tags would complete, or what hangs has
    closing tags to spare. -/
theorem house_content_filter_iff (html : Octets) (h : html.length ≤ 65530) :
    OnlyCloses html ∧ Balanced html ↔
      ((closed html).length = (opened html).length →
        ∀ name, (closed html).count name = (opened html).count name) ∧
      ((closed html).length ≠ (opened html).length →
        ∀ name, (closed html).count name < (opened html).count name →
          ∀ hung, pending html = some hung → (opened html).count hung < (closed html).count hung) := by
  rw [and_iff_right (onlyCloses h)]
  by_cases heq : (closed html).length = (opened html).length
  · rw [balanced_iff_of_eq h heq]
    exact ⟨fun hall => ⟨fun _ => hall, fun hne => absurd heq hne⟩, fun hand => hand.1 heq⟩
  · rw [balanced_iff_of_ne h heq]
    exact ⟨fun hall => ⟨fun heq' => absurd heq' heq, fun _ => hall⟩, fun hand => hand.2 heq⟩

theorem house_content_filter_small :
    let html := octets "<p>text <b class=x>more</b>"
    OnlyCloses html ∧ Balanced html := by
  intro html
  refine (house_content_filter_iff html (by decide +kernel)).mpr ⟨fun heq => ?_, fun _ name _ hung hpending => ?_⟩
  · exact absurd heq (by decide +kernel)
  · have hnone : pending html = none := by decide +kernel
    rw [hnone] at hpending
    cases hpending

/-- Two names with one tag each; and a tag that the expression for opening tags does not
    take until a closing tag is added. -/
theorem house_content_filter_unbalanced :
    houseContentFilter (octets "<a></b>") = octets "<a></b>" ∧
      houseContentFilter (octets "<p><br /> text") = octets "<p><br /> text</p>" ∧
      opened (octets "<p><br /> text</p>") = [octets "p", octets "br"] ∧
      closed (octets "<p><br /> text</p>") = [octets "p"] ∧
      (¬∀ html : Octets, html.length ≤ 65530 → Balanced html) := by
  refine ⟨by decide +kernel, by decide +kernel, by decide +kernel, by decide +kernel, fun hall => ?_⟩
  have hbr := hall (octets "<p><br /> text") (by decide +kernel) (octets "br") (by decide +kernel)
  revert hbr
  decide +kernel

end RubbishStore.Util.StrFilter
