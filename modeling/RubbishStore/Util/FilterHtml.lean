import RubbishStore.Lib.PhpText
import RubbishStore.Lib.Replace

/- `Util_PublicMethods::filterHTML`, which takes every tag out of a text but those it lists.
   Its expression asks only how the name of a tag begins: behind `<` no listed word may
   start. So a tag stays whose name goes on behind a listed word, as it is or when a tag in
   it has been taken out. `TagsListed` reads the names off the input: it passes over what
   is taken out, and each `<` that stays and is closed must have a listed name ahead. -/
namespace RubbishStore.Util.FilterHtml
open RubbishStore.Lib RubbishStore.Lib.Replace

/-- The words of the lookahead. -/
def words : List Octets :=
  [octets "p", octets "/p", octets "span", octets "/span", octets "font", octets "/font", octets "br",
    octets "strong", octets "/strong", octets "em", octets "/em", octets "b", octets "/b", octets "U",
    octets "/U", octets "table", octets "/table", octets "tbody", octets "/tbody", octets "thead",
    octets "/thead", octets "tr", octets "/tr", octets "td", octets "/td", octets "ul", octets "/ul",
    octets "ol", octets "/ol", octets "li", octets "/li", octets "u", octets "/u"]

def lookahead (s : Octets) : Bool := words.any fun word => startsWith lower word s

/-- `\<(?!...)(.*?)\>` with the modifiers `i` and `s`: from a `<` up to the next `>`. -/
def foreignTag : Octets → Option Nat
  | [] => none
  | b :: s =>
    if b = 60 ∧ lookahead s = false then (s.findIdx? fun b => b = 62).map fun i => i + 2 else none

/-- Without the white space around it, and with a blank for what else is white. -/
def spaced (value : Octets) : Octets :=
  (PhpText.trim UInt8.toNat value).map fun b => if b = 10 ∨ b = 13 ∨ b = 9 then 32 else b

def filterHTML (value : Octets) : Octets :=
  let value := spaced value
  if value = [] then value else delete foreignTag value

/-! What the output should be. -/

/-- The names that are listed. -/
def names : List Octets :=
  [octets "p", octets "span", octets "font", octets "br", octets "strong", octets "em", octets "b",
    octets "u", octets "table", octets "tbody", octets "thead", octets "tr", octets "td", octets "ul",
    octets "ol", octets "li"]

def isListed (name : Octets) : Bool := names.contains (name.map lower)

/-- A name ends with white space, with a slash, or with its tag. -/
def endsName (b : UInt8) : Bool := b = 32 || b = 9 || b = 10 || b = 12 || b = 13 || b = 47 || b = 62

/-- The name of the tag that goes on with `s` behind its `<`; a slash in front of it does not
    belong to it. -/
def tagName : Octets → Octets
  | [] => []
  | b :: s => if b = 47 then s.takeWhile fun b => !endsName b else (b :: s).takeWhile fun b => !endsName b

/-- Every `<` with a `>` behind it is that of a tag with a listed name. -/
def OnlyListed (s : Octets) : Prop := ∀ u v, s = u ++ 60 :: v → 62 ∈ v → isListed (tagName v) = true

/-! The input. The first argument of the three functions counts the bytes that belong to the
    foreign tag before. -/

/-- A `>` stands ahead, outside of foreign tags. -/
def closes : Nat → Octets → Bool
  | _, [] => false
  | skip + 1, _ :: s => closes skip s
  | 0, b :: s =>
    match foreignTag (b :: s) with
    | some (length + 1) => closes length s
    | _ => b = 62 || closes 0 s

/-- The name ahead, past foreign tags; the flag says that it has not begun. -/
def nameAhead : Bool → Nat → Octets → Octets
  | _, _, [] => []
  | first, skip + 1, _ :: s => nameAhead first skip s
  | first, 0, b :: s =>
    match foreignTag (b :: s) with
    | some (length + 1) => nameAhead first length s
    | _ =>
      if first = true ∧ b = 47 then nameAhead false 0 s
      else if endsName b then []
      else b :: nameAhead false 0 s

/-- Every `<` that begins no foreign tag, and is closed, has a listed name ahead. -/
def TagsListed : Nat → Octets → Prop
  | _, [] => True
  | skip + 1, _ :: s => TagsListed skip s
  | 0, b :: s =>
    match foreignTag (b :: s) with
    | some (length + 1) => TagsListed length s
    | _ => (b = 60 → closes 0 s = true → isListed (nameAhead true 0 s) = true) ∧ TagsListed 0 s

/-! Reading the input is reading what is left of it. -/

theorem closes_iff (skip : Nat) (s : Octets) :
    closes skip s = true ↔ 62 ∈ substitute foreignTag [] skip s := by
  induction s generalizing skip with
  | nil => simp [closes]
  | cons b s ih =>
    cases skip with
    | succ skip => exact ih skip
    | zero =>
      rw [closes]
      split
      · next length hlength => rw [substitute_hit hlength, List.nil_append, ih]
      · next hmiss =>
        rw [substitute_miss fun h => h.elim fun length hlength => hmiss length hlength, List.mem_cons,
          Bool.or_eq_true, decide_eq_true_eq, ih, eq_comm]

theorem nameAhead_false (skip : Nat) (s : Octets) :
    nameAhead false skip s = (substitute foreignTag [] skip s).takeWhile fun b => !endsName b := by
  induction s generalizing skip with
  | nil => simp [nameAhead]
  | cons b s ih =>
    cases skip with
    | succ skip => exact ih skip
    | zero =>
      rw [nameAhead]
      split
      · next length hlength => rw [substitute_hit hlength, List.nil_append, ih]
      · next hmiss =>
        rw [substitute_miss fun h => h.elim fun length hlength => hmiss length hlength,
          List.takeWhile_cons, if_neg (by simp), ih]
        cases endsName b <;> rfl

theorem nameAhead_true (skip : Nat) (s : Octets) :
    nameAhead true skip s = tagName (substitute foreignTag [] skip s) := by
  induction s generalizing skip with
  | nil => simp [nameAhead, tagName]
  | cons b s ih =>
    cases skip with
    | succ skip => exact ih skip
    | zero =>
      rw [nameAhead]
      split
      · next length hlength => rw [substitute_hit hlength, List.nil_append, ih]
      · next hmiss =>
        rw [substitute_miss fun h => h.elim fun length hlength => hmiss length hlength, tagName,
          nameAhead_false, List.takeWhile_cons]
        by_cases hslash : b = 47
        · rw [if_pos ⟨rfl, hslash⟩, if_pos hslash]
        · rw [if_neg fun h => hslash h.2, if_neg hslash]
          cases endsName b <;> rfl

theorem onlyListed_nil : OnlyListed [] := by
  intro u v h
  exact absurd h.symm (List.append_ne_nil_of_right_ne_nil u (List.cons_ne_nil 60 v))

/-- One byte more: only if it is `<` is there a tag more. -/
theorem onlyListed_cons_iff {b : UInt8} {s : Octets} :
    OnlyListed (b :: s) ↔ (b = 60 → 62 ∈ s → isListed (tagName s) = true) ∧ OnlyListed s := by
  constructor
  · intro h
    refine ⟨fun hb hgt => h [] s (by rw [hb, List.nil_append]) hgt, fun u v hs hgt => ?_⟩
    exact h (b :: u) v (by rw [hs, List.cons_append]) hgt
  · intro h u v hs hgt
    cases u with
    | nil =>
      obtain ⟨rfl, rfl⟩ := List.cons.inj hs
      exact h.1 rfl hgt
    | cons a u =>
      obtain ⟨rfl, rfl⟩ := List.cons.inj hs
      exact h.2 u v rfl hgt

theorem onlyListed_iff (skip : Nat) (s : Octets) :
    OnlyListed (substitute foreignTag [] skip s) ↔ TagsListed skip s := by
  induction s generalizing skip with
  | nil =>
    rw [substitute_nil]
    exact iff_of_true onlyListed_nil trivial
  | cons b s ih =>
    cases skip with
    | succ skip => exact ih skip
    | zero =>
      rw [TagsListed]
      split
      · next length hlength => rw [substitute_hit hlength, List.nil_append, ih]
      · next hmiss =>
        rw [substitute_miss fun h => h.elim fun length hlength => hmiss length hlength,
          onlyListed_cons_iff, ih, ← closes_iff, ← nameAhead_true]

theorem filterHTML_eq (value : Octets) : filterHTML value = delete foreignTag (spaced value) := by
  rw [filterHTML]
  split
  · next hempty => rw [hempty]; rfl
  · rfl

/-- **Only listed tags are left just when every tag that is passed over has a whole listed
    name ahead**, not only the beginning of one. -/
theorem filterHTML_onlyListed_iff (value : Octets) :
    OnlyListed (filterHTML value) ↔ TagsListed 0 (spaced value) := by
  rw [filterHTML_eq, delete, onlyListed_iff]

/-! Texts whose tags are not cut into by others: what the condition comes to there. -/

/-- A byte between tags, or what a tag has between its `<` and its `>`. -/
inductive Piece where
  | data (b : UInt8)
  | tag (content : Octets)

def Piece.html : Piece → Octets
  | data b => [b]
  | tag content => 60 :: content ++ [62]

/-- Neither `<` nor `>` but those that make the tags. -/
def Piece.Flat : Piece → Prop
  | data b => b ≠ 60 ∧ b ≠ 62
  | tag content => 60 ∉ content ∧ 62 ∉ content

/-- The name of a tag whose name begins with a listed word is a listed name. -/
def Piece.Listed : Piece → Prop
  | data _ => True
  | tag content => lookahead content = true → isListed (tagName (content ++ [62])) = true

theorem foreignTag_other {b : UInt8} (h : b ≠ 60) (s : Octets) : foreignTag (b :: s) = none := by
  rw [foreignTag, if_neg fun hb => h hb.1]

/-- A word without `>` does not reach behind one. -/
theorem startsWith_gt {word : Octets} (hword : 62 ∉ word.map lower) (s rest : Octets) :
    startsWith lower word (s ++ 62 :: rest) = startsWith lower word s := by
  induction word generalizing s with
  | nil => rfl
  | cons a word ih =>
    rw [List.map_cons, List.mem_cons, not_or] at hword
    cases s with
    | nil =>
      have hno : ¬ startsWith lower (a :: word) (62 :: rest) = true := by
        rw [startsWith_cons_iff]
        exact fun h => hword.1 h.1
      rw [List.nil_append, Bool.eq_false_iff.mpr hno]
      rfl
    | cons b s =>
      rw [List.cons_append, Bool.eq_iff_iff, startsWith_cons_iff, startsWith_cons_iff, ih hword.2]

theorem lookahead_gt (s rest : Octets) : lookahead (s ++ 62 :: rest) = lookahead s := by
  have hwords : ∀ word ∈ words, 62 ∉ word.map lower := by decide +kernel
  rw [lookahead, lookahead, Bool.eq_iff_iff, List.any_eq_true, List.any_eq_true]
  refine exists_congr fun word => and_congr_right fun hword => ?_
  rw [startsWith_gt (hwords word hword)]

theorem foreignTag_flat {content : Octets} (h : 62 ∉ content) (rest : Octets) :
    foreignTag (60 :: (content ++ 62 :: rest)) =
      if lookahead content = false then some (content.length + 2) else none := by
  have hfirst : (content ++ 62 :: rest).findIdx? (fun b => b = 62) = some content.length := by
    have hnone : content.findIdx? (fun b => b = 62) = none :=
      List.findIdx?_eq_none_iff.mpr fun b hb => decide_eq_false fun he => h (he ▸ hb)
    rw [List.findIdx?_append, hnone, List.findIdx?_cons]
    simp
  rw [foreignTag, lookahead_gt, hfirst]
  simp

theorem substitute_flat {content : Octets} (h : 60 ∉ content) (rest : Octets) :
    substitute foreignTag [] 0 (content ++ rest) = content ++ substitute foreignTag [] 0 rest := by
  induction content with
  | nil => rfl
  | cons b content ih =>
    rw [List.mem_cons, not_or] at h
    rw [List.cons_append, substitute_none (foreignTag_other (Ne.symm h.1) _), ih h.2, List.cons_append]

theorem onlyListed_flat_iff {content : Octets} (h : 60 ∉ content) (rest : Octets) :
    OnlyListed (content ++ rest) ↔ OnlyListed rest := by
  induction content with
  | nil => rfl
  | cons b content ih =>
    rw [List.mem_cons, not_or] at h
    rw [List.cons_append, onlyListed_cons_iff, ih h.2]
    exact and_iff_right fun hb => absurd hb.symm h.1

/-- A name does not reach behind its tag. -/
theorem tagName_gt (content rest : Octets) : tagName (content ++ 62 :: rest) = tagName (content ++ [62]) := by
  have htake : ∀ s : Octets, (s ++ 62 :: rest).takeWhile (fun b => !endsName b) =
      (s ++ [62]).takeWhile fun b => !endsName b := by
    intro s
    induction s with
    | nil => rfl
    | cons b s ih => rw [List.cons_append, List.cons_append, List.takeWhile_cons, List.takeWhile_cons, ih]
  cases content with
  | nil => rfl
  | cons b content =>
    rw [List.cons_append, List.cons_append, tagName, tagName, htake, ← List.cons_append, htake]
    rfl

/-- What is behind a tag that has been taken. -/
theorem substitute_behind (content s : Octets) :
    substitute foreignTag [] (content.length + 1) (content ++ 62 :: s) = substitute foreignTag [] 0 s := by
  have hsplit : content ++ 62 :: s = (content ++ [62]) ++ s := by simp
  have hlength : content.length + 1 = (content ++ [62]).length := by simp
  rw [hsplit, hlength, substitute_skip]

/-- In a flat text the condition is one on each tag: a name that begins with a listed word
    is listed. -/
theorem tagsListed_flat_iff {pieces : List Piece} (h : ∀ piece ∈ pieces, piece.Flat) :
    TagsListed 0 (pieces.flatMap Piece.html) ↔ ∀ piece ∈ pieces, piece.Listed := by
  rw [← onlyListed_iff]
  induction pieces with
  | nil => exact iff_of_true onlyListed_nil (List.forall_mem_nil _)
  | cons piece pieces ih =>
    obtain ⟨hpiece, hpieces⟩ := List.forall_mem_cons.mp h
    rw [List.flatMap_cons, List.forall_mem_cons, ← ih hpieces]
    cases piece with
    | data b =>
      rw [Piece.html, List.singleton_append, substitute_none (foreignTag_other hpiece.1 _),
        onlyListed_cons_iff]
      exact and_congr_left' (iff_of_true (fun hb => absurd hb hpiece.1) trivial)
    | tag content =>
      have hhtml : Piece.html (.tag content) ++ pieces.flatMap Piece.html =
          60 :: (content ++ 62 :: pieces.flatMap Piece.html) := by simp [Piece.html]
      have hfront := foreignTag_flat hpiece.2 (pieces.flatMap Piece.html)
      rw [hhtml]
      cases hlook : lookahead content with
      | false =>
        rw [if_pos hlook] at hfront
        rw [substitute_hit hfront, List.nil_append, substitute_behind]
        exact (and_iff_right fun htrue => absurd (hlook.symm.trans htrue) Bool.false_ne_true).symm
      | true =>
        rw [if_neg (by rw [hlook]; decide)] at hfront
        rw [substitute_none hfront, substitute_flat hpiece.1,
          substitute_none (foreignTag_other (by decide) _), onlyListed_cons_iff,
          onlyListed_flat_iff hpiece.1, onlyListed_cons_iff, tagName_gt]
        constructor
        · intro hlisted
          refine ⟨fun _ => hlisted.1 rfl ?_, hlisted.2.2⟩
          exact List.mem_append_right _ List.mem_cons_self
        · intro hlisted
          exact ⟨fun _ _ => hlisted.1 hlook, fun hb => absurd hb (by decide), hlisted.2⟩

/-- A name that goes on behind a listed word, and one that does so without the tag in it. -/
theorem filterHTML_body :
    (filterHTML (octets "<body onload='x'>") = octets "<body onload='x'>" ∧
      filterHTML (octets "<u<a>nit>") = octets "<unit>") ∧
      ¬ ∀ value : Octets, OnlyListed (filterHTML value) := by
  refine ⟨by decide +kernel, fun h => ?_⟩
  have hbody : filterHTML (octets "<body>") = 60 :: octets "body>" := by decide +kernel
  have hname := h (octets "<body>") [] (octets "body>") hbody (by decide +kernel)
  exact absurd hname (by decide +kernel)

end RubbishStore.Util.FilterHtml
