import RubbishStore.Util.StrFilter
import RubbishStore.Lib.PhpText
import RubbishStore.Lib.Tags

/- `Util_StrFilter::autoCompleteUnclosedTag`, which completes the closing tags of an
   HTML text. It cuts the text at `<...>`, tells the pieces apart by four expressions
   and keeps a stack of the tags that it takes as open. Where every piece is what its
   expression takes it for, the stack holds what is open in the output and the output
   is properly nested; where one is not, the two come apart (`tracks_iff_regular`). -/
namespace RubbishStore.Util.AutoComplete
open RubbishStore.Lib StrFilter

/-- `\w` -/
def word : Re UInt8 := .atom Tags.isWord

/-- `[^\/>]*?` -/
def inTag : Re UInt8 := .star false (.atom fun b => b != 47 && b != 62)

/-- `/(<[^>]+?>)/si` -/
def piecePattern : Re UInt8 := .group (.seq (lit "<") (.seq (.plus false (.atom (· != 62))) (lit ">")))

/-- `/<(\w+)[^\/>]*?\/>/si` -/
def selfClosedPattern : Re UInt8 := .seq (lit "<") (.seq (.group (.plus true word)) (.seq inTag (lit "/>")))

/-- `/<(\w+)[^\/>]*?>/si` -/
def openPattern : Re UInt8 := .seq (lit "<") (.seq (.group (.plus true word)) (.seq inTag (lit ">")))

/-- `/<\/(\w+)[^\/>]*?>/si` -/
def closePattern : Re UInt8 := .seq (lit "</") (.seq (.group (.plus true word)) (.seq inTag (lit ">")))

/-- `/<!--.*?-->/si` -/
def commentPattern : Re UInt8 := .seq (lit "<!--") (.seq (.star false (.atom fun _ => true)) (lit "-->"))

def singleTagArray : List Octets :=
  [octets "<meta", octets "<link", octets "<base", octets "<br", octets "<hr", octets "<input",
    octets "<img", octets "<area"]

/-- `preg_split` with the delimiters and without empty pieces. The first argument counts
    the bytes that belong to the delimiter before, the second is the text since then. -/
def pregSplit (pattern : Octets → Option Nat) : Nat → Octets → Octets → List Octets
  | _, text, [] => if text = [] then [] else [text]
  | skip + 1, text, _ :: s => pregSplit pattern skip text s
  | 0, text, b :: s =>
    match pattern (b :: s) with
    | some (length + 1) =>
      -- the delimiter is a piece of its own
      let pieces := (b :: s).take (length + 1) :: pregSplit pattern length [] s
      if text = [] then pieces else text :: pieces
    | _ => pregSplit pattern 0 (text ++ [b]) s

/-- `strtoupper` of a byte. -/
def upper (b : UInt8) : UInt8 := if 97 ≤ b ∧ b ≤ 122 then b - 32 else b

inductive MatchType where
  | nest
  | close
  deriving DecidableEq, Repr

/-- Anything but `CLOSE` is `NEST`. -/
def matchType (type : Octets) : MatchType := if type.map upper = octets "CLOSE" then .close else .nest

/-- `options`, with the defaults. -/
structure Options where
  tagArray : List Octets := []
  type : Octets := octets "NEST"
  length : Option Int := none
  lowerTag : Bool := true
  xHtmlFix : Bool := true

/-- What is left to PHP: whether two numbers are equal that are written differently,
    and the characters of a string. -/
structure Php where
  sameNumber : List Nat → List Nat → Bool
  characters : Octets → List Octets
  flatten_characters : ∀ s, (characters s).flatten = s

def mbStrlen (php : Php) (s : Octets) : Nat := (php.characters s).length

/-- `mb_substr($s, 0, $length)` -/
def mbSubstr (php : Php) (s : Octets) (length : Int) : Octets :=
  ((php.characters s).take (if 0 ≤ length then length.toNat else mbStrlen php s - (-length).toNat)).flatten

/-- `stripos($haystack, $needle) !== false` -/
def stripos (haystack needle : Octets) : Bool := haystack.tails.any (Replace.startsWith lower needle)

/-- `str_replace` -/
def strReplace (search replace subject : Octets) : Octets :=
  Replace.substitute (Replace.ofWord id search) replace 0 subject

/-- What `end` finds, `false` if nothing, compared with a string by `==`. -/
def eqEnd (php : Php) (last : Option Octets) (s : Octets) : Bool :=
  match last with
  | none => s = [] || s = octets "0"
  | some t => PhpText.looseEq php.sameNumber (t.map UInt8.toNat) (s.map UInt8.toNat)

def inArray (php : Php) (last : Option Octets) (array : List Octets) : Bool := array.any (eqEnd php last)

/-- What a piece is taken for. -/
inductive Reading where
  | blank
  | selfClosed
  | opening (name : Octets)
  | closing (name : Octets)
  | comment
  | text
  deriving DecidableEq, Repr

def reading (tag : Octets) : Reading :=
  if PhpText.trim UInt8.toNat tag = [] then .blank
  else if (Re.search selfClosedPattern tag).isSome then .selfClosed
  else
    match Re.search openPattern tag with
    | some found => .opening (found.groups.headD [])
    | none =>
      match Re.search closePattern tag with
      | some found => .closing (found.groups.headD [])
      | none => if (Re.search commentPattern tag).isSome then .comment else .text

/-- The variables of the loop; the end of `$tagStack` comes first. -/
structure Completion where
  result : Octets
  tagStack : List Octets
  len : Nat
  isClosed : Bool
  deriving DecidableEq, Repr

def start : Completion := ⟨[], [], 0, true⟩

section
variable (php : Php) (o : Options)

/-- `$tagArray`, lowered. -/
def tagArray : List Octets := o.tagArray.map (·.map lower)

def matchLower (name : Octets) : Octets := if o.lowerTag then name.map lower else name

/-- Whether an opening tag first closes the one before. -/
def closesNear (σ : Completion) : Bool :=
  !σ.isClosed &&
    match matchType o.type with
    | .close => true
    | .nest => inArray php σ.tagStack.head? (tagArray o)

def closeNear (σ : Completion) : Completion :=
  if closesNear php o σ then
    -- with nothing on the stack `end` is `false`, which is put in as nothing
    { σ with
      result := σ.result ++ Tags.closeTag (σ.tagStack.headD [])
      tagStack := σ.tagStack.tail }
  else σ

/-- One of the single tags looked up, with `$tag` and `$tagStack`. -/
def popSingle (now : Octets × List Octets) (singleTag : Octets) : Octets × List Octets :=
  if stripos now.1 singleTag then
    -- the fix comes late: `$tag` is in the result already
    (if o.xHtmlFix then strReplace (octets ">") (octets " />") now.1 else now.1, now.2.tail)
  else now

def openTag (σ : Completion) (name tag : Octets) : Completion :=
  let σ := closeNear php o σ
  let lowered := matchLower o name
  let tag := strReplace (octets "<" ++ name) (octets "<" ++ lowered) tag
  { σ with
    result := σ.result ++ tag
    tagStack := (singleTagArray.foldl (popSingle o) (tag, lowered :: σ.tagStack)).2
    isClosed :=
      match matchType o.type with
      | .close => false
      | .nest => if inArray php (some lowered) (tagArray o) then false else σ.isClosed }

def accepts (σ : Completion) (name : Octets) : Bool := eqEnd php σ.tagStack.head? (matchLower o name)

def endTag (σ : Completion) (name tag : Octets) : Completion :=
  if accepts php o σ name then
    { σ with
      result := σ.result ++ strReplace (octets "</" ++ name) (octets "</" ++ matchLower o name) tag
      tagStack := σ.tagStack.tail
      isClosed := true }
  else σ

/-- Whether a text goes in whole. -/
def fits (σ : Completion) (tag : Octets) : Bool :=
  match o.length with
  | none => true
  | some length => σ.len + mbStrlen php tag < length

/-- What goes in of a text. -/
def cutText (σ : Completion) (tag : Octets) : Octets :=
  if fits php o σ tag then tag else mbSubstr php tag (o.length.getD 0 - σ.len + 1)

def step (σ : Completion) (tag : Octets) : Completion :=
  match reading tag with
  | .blank => { σ with result := σ.result ++ tag }
  | .selfClosed => { σ with result := σ.result ++ tag }
  | .opening name => openTag php o σ name tag
  | .closing name => endTag php o σ name tag
  | .comment => { σ with result := σ.result ++ tag }
  | .text =>
    { σ with
      result := σ.result ++ cutText php o σ tag
      len := if fits php o σ tag then σ.len + mbStrlen php tag else σ.len }

/-- Whether the loop ends with this piece. -/
def breaks (σ : Completion) (tag : Octets) : Bool :=
  match reading tag with
  | .text => !fits php o σ tag
  | _ => false

def loop : Completion → List Octets → Completion
  | σ, [] => σ
  | σ, tag :: contents =>
    if breaks php o σ tag then step php o σ tag else loop (step php o σ tag) contents

def contents (html : Octets) : List Octets := pregSplit (Re.matchLength piecePattern) 0 [] html

def autoCompleteUnclosedTag (html : Octets) : Octets :=
  let σ := loop php o start (contents html)
  σ.result ++ σ.tagStack.flatMap Tags.closeTag

end

/-! What the output should be. -/

open Tags

/-- The single tags open nothing. -/
def isSingle (name : Octets) : Bool := singleTagArray.contains (octets "<" ++ name)

/-- Where a reader of the output is. -/
def Completion.mode (σ : Completion) : Mode := Mode.text.after σ.result

/-- The names on the stack, whatever their case. -/
def Completion.names (σ : Completion) : List Octets := σ.tagStack.map (·.map lower)

/-- The stack holds what is open in the output. -/
def Tracks (σ : Completion) : Prop := nest [] (tags isSingle σ.result) = some σ.names

/-- How many of the single tags stand in a piece. -/
def singles (tag : Octets) : Nat := singleTagArray.countP (stripos tag)

section
variable (php : Php) (o : Options)

/-- A piece is what it is taken for. One that goes in as it is has no tag; a closing tag
    that goes in closes the innermost open name; an opening tag opens its own name, or
    none if it is single, and has the innermost name closed only if there is one. -/
def Regular (σ : Completion) (tag : Octets) : Prop :=
  match reading tag with
  | .opening name =>
    let near := closeNear php o σ
    (closesNear php o σ = true →
      tagsFrom isSingle σ.mode (closeTag (σ.tagStack.headD [])) = closer σ.names) ∧
    Pushes near.names (name.map lower) (singles tag) (tagsFrom isSingle near.mode tag)
  | .closing name => accepts php o σ name = true → tagsFrom isSingle σ.mode tag = closer σ.names
  | .text => tagsFrom isSingle σ.mode (cutText php o σ tag) = []
  | _ => tagsFrom isSingle σ.mode tag = []

instance (σ : Completion) (tag : Octets) : Decidable (Regular php o σ tag) :=
  match hread : reading tag with
  | .opening name => decidable_of_iff (_ ∧ _) (by rw [Regular, hread])
  | .closing name => decidable_of_iff (_ → _) (by rw [Regular, hread])
  | .text => decidable_of_iff (_ = _) (by rw [Regular, hread])
  | .blank => decidable_of_iff (_ = _) (by rw [Regular, hread])
  | .selfClosed => decidable_of_iff (_ = _) (by rw [Regular, hread])
  | .comment => decidable_of_iff (_ = _) (by rw [Regular, hread])

/-- The first closing tag at the end is read as one. -/
def Finishes (σ : Completion) : Prop :=
  ∀ name, σ.tagStack.head? = some name →
    tagsFrom isSingle σ.mode (closeTag name) = [.closing (name.map lower)]

/-- The states that a piece leads to, the one behind the closing of the tag before included. -/
def visited (σ : Completion) (tag : Octets) : List Completion :=
  match reading tag with
  | .opening _ => [closeNear php o σ, step php o σ tag]
  | _ => [step php o σ tag]

/-- The pieces that the loop comes to, each with the state before it. -/
def steps : Completion → List Octets → List (Completion × Octets)
  | _, [] => []
  | σ, tag :: contents =>
    (σ, tag) :: if breaks php o σ tag then [] else steps (step php o σ tag) contents

end

/-! Replacing a name by its lower case. -/

theorem map_lower_strReplace {search replace : Octets} (h : replace.map lower = search.map lower)
    (subject : Octets) : (strReplace search replace subject).map lower = subject.map lower := by
  refine Replace.map_substitute_eq (fun t length hlength => ?_) 0 subject
  rw [Replace.ofWord] at hlength
  split at hlength
  · next hstart =>
    rw [Option.some.injEq] at hlength
    have htaken := of_decide_eq_true hstart
    rw [List.map_id, List.map_id] at htaken
    rw [← hlength, htaken, h]
  · cases hlength

theorem map_lower_matchLower (o : Options) (name : Octets) :
    (matchLower o name).map lower = name.map lower := by
  have hlower : lower ∘ lower = lower := funext lower_lower
  rw [matchLower]
  split
  · rw [List.map_map, hlower]
  · rfl

theorem map_lower_renamed (o : Options) (front name tag : Octets) :
    (strReplace (front ++ name) (front ++ matchLower o name) tag).map lower = tag.map lower := by
  apply map_lower_strReplace
  rw [List.map_append, List.map_append, map_lower_matchLower]

theorem tagsFrom_renamed (o : Options) (m : Mode) (front name tag : Octets) :
    tagsFrom isSingle m (strReplace (front ++ name) (front ++ matchLower o name) tag) =
      tagsFrom isSingle m tag := by
  rw [← tagsFrom_map_lower, map_lower_renamed, tagsFrom_map_lower]

theorem after_renamed (o : Options) (m : Mode) (front name tag : Octets) :
    m.after (strReplace (front ++ name) (front ++ matchLower o name) tag) = m.after tag := by
  rw [← after_map_lower, map_lower_renamed, after_map_lower]

/-! The single tags. -/

theorem stripos_iff {haystack needle : Octets} :
    stripos haystack needle = true ↔ ∃ t, t <:+ haystack ∧ Replace.startsWith lower needle t = true := by
  simp only [stripos, List.any_eq_true, List.mem_tails]

theorem stripos_congr {s t : Octets} (h : s.map lower = t.map lower) (needle : Octets) :
    stripos s needle = stripos t needle := by
  have hmap : ∀ s : Octets, stripos s needle = (s.map lower).tails.any fun t =>
      decide (t.take needle.length = needle.map lower) := by
    intro s
    induction s with
    | nil => simp [stripos, Replace.startsWith]
    | cons b s ih =>
      simp only [stripos, List.tails_cons, List.any_cons, List.map_cons] at ih ⊢
      rw [ih, Replace.startsWith, List.map_take, List.map_cons]
  rw [hmap, hmap, h]

/-- The fix of a single tag hides none of the others. -/
theorem stripos_fixed (tag : Octets) {singleTag : Octets} (h : singleTag ∈ singleTagArray) :
    stripos (strReplace (octets ">") (octets " />") tag) singleTag = stripos tag singleTag := by
  have hwords : ∀ singleTag ∈ singleTagArray, singleTag ≠ [] ∧ lower 62 ∉ singleTag.map lower ∧
      ∀ b ∈ singleTag, lower b ∉ ([32, 47, 62] : Octets).map lower := by
    decide +kernel
  have hgt : octets ">" = [62] ∧ octets " />" = [32, 47, 62] := ⟨octets_eq _, octets_eq _⟩
  have hsep : ∀ b, lower b = lower 62 → b = 62 := fun b hb =>
    (lower_eq_iff (by decide)).mp (hb.trans (by decide))
  have hmark : strReplace (octets ">") (octets " />") tag = Replace.mark lower 62 32 [47, 62] tag := by
    rw [strReplace, hgt.1, hgt.2, Replace.mark, Replace.substitute_single hsep]
    exact Replace.substitute_single (fun _ hb => hb) tag
  obtain ⟨hne, hgt, hnew⟩ := hwords singleTag h
  rw [Bool.eq_iff_iff, stripos_iff, stripos_iff, hmark]
  exact Replace.startsWith_suffix_mark hsep hne hgt hnew tag

/-- As many names go as there are single tags in the piece. -/
theorem foldl_popSingle (o : Options) (tag : Octets) {array : List Octets} (harray : array ⊆ singleTagArray)
    {now : Octets × List Octets} (hnow : ∀ singleTag ∈ singleTagArray, stripos now.1 singleTag = stripos tag singleTag) :
    (array.foldl (popSingle o) now).2 = now.2.drop (array.countP (stripos tag)) := by
  induction array generalizing now with
  | nil => rfl
  | cons singleTag array ih =>
    obtain ⟨hsingle, harray⟩ := List.cons_subset.mp harray
    rw [List.foldl_cons, popSingle, hnow singleTag hsingle]
    by_cases hfound : stripos tag singleTag = true
    · rw [if_pos hfound, List.countP_cons_of_pos hfound, ih harray, List.drop_tail]
      intro other hother
      split
      · rw [stripos_fixed now.1 hother, hnow other hother]
      · exact hnow other hother
    · rw [if_neg hfound, List.countP_cons_of_neg hfound, ih harray hnow]

/-! The pieces. -/

/-- A literal without letters stands for itself. -/
theorem matches_lit {s : String} {p : Octets} (hs : octets s = p) (hp : ∀ c ∈ p, isWord c = false)
    {u : Octets} : (lit s).Matches u ↔ u = p := by
  rw [lit, hs, Re.matches_literal_iff]
  refine ⟨fun h => ?_, fun h => by rw [h]⟩
  clear hs
  induction p generalizing u with
  | nil => exact List.map_eq_nil_iff.mp h
  | cons c p ih =>
    obtain ⟨hc, hp⟩ := List.forall_mem_cons.mp hp
    cases u with
    | nil => cases h
    | cons b u =>
      injection h with hbc hup
      have hlower : lower c = c := (lower_eq_iff hc).mpr rfl
      rw [(lower_eq_iff hc).mp (hbc.trans hlower), ih hp hup]

theorem matches_less {u : Octets} : (lit "<").Matches u ↔ u = [60] :=
  matches_lit (octets_eq _) (by simp [isWord])

theorem matches_gt {u : Octets} : (lit ">").Matches u ↔ u = [62] :=
  matches_lit (octets_eq _) (by simp [isWord])

theorem nullable_piecePattern : Re.nullable piecePattern = false := by
  rw [piecePattern, lit, lit, octets_eq, octets_eq]
  rfl

theorem matches_piecePattern_iff {w : Octets} :
    piecePattern.Matches w ↔ ∃ u, u ≠ [] ∧ 62 ∉ u ∧ w = 60 :: u ++ [62] := by
  simp only [piecePattern, Re.matches_group_iff, Re.matches_seq_iff, matches_less, matches_gt,
    Re.matches_plus_atom_iff]
  refine ⟨fun h => ?_, fun h => ?_⟩
  · obtain ⟨_, _, rfl, ⟨u, _, ⟨hne, hu⟩, rfl, rfl⟩, rfl⟩ := h
    exact ⟨u, hne, fun hmem => by simpa using hu 62 hmem, rfl⟩
  · obtain ⟨u, hne, hu, rfl⟩ := h
    refine ⟨[60], u ++ [62], rfl, ⟨u, [62], ⟨hne, fun b hb => ?_⟩, rfl, rfl⟩, rfl⟩
    rw [bne_iff_ne]
    exact fun hgt => hu (hgt ▸ hb)

/-- Where no piece starts although there is a `<`. -/
theorem not_piece {t : Octets} (h : Re.matchLength piecePattern (60 :: t) = none) :
    62 ∉ t ∨ [62] <+: t := by
  by_cases hmem : 62 ∈ t
  · right
    obtain ⟨u, v, rfl, hu⟩ := List.eq_append_cons_of_mem hmem
    cases u with
    | nil => exact List.prefix_append [62] v
    | cons b u =>
      refine absurd ?_ (Re.matchLength_eq_none_iff.mp h (60 :: (b :: u) ++ [62]) ?_)
      · exact ⟨v, by simp⟩
      · exact matches_piecePattern_iff.mpr ⟨b :: u, List.cons_ne_nil b u, hu, rfl⟩
  · exact .inl hmem

/-- A piece that ends with its only `>`. -/
def IsToken (tag : Octets) : Prop := ∃ s, tag = s ++ [62] ∧ 62 ∉ s

/-- Tokens, and texts that start no tag; only the last text may leave one open. -/
def WellSplit : List Octets → Prop
  | [] => True
  | tag :: contents => (IsToken tag ∨ Tagless tag ∧ (contents = [] ∨ Plain tag)) ∧ WellSplit contents

/-- No piece starts in the text, with what comes behind it. -/
def Gathered (text s : Octets) : Prop :=
  ∀ t, t ≠ [] → t <:+ text → Re.matchLength piecePattern (t ++ s) = none

theorem gathered_nil (s : Octets) : Gathered [] s := fun _ hne ht => absurd (List.suffix_nil.mp ht) hne

theorem Gathered.snoc {text s : Octets} {b : UInt8} (h : Gathered text (b :: s))
    (hnone : Re.matchLength piecePattern (b :: s) = none) : Gathered (text ++ [b]) s := by
  intro t hne ht
  obtain ⟨t, rfl, hsuf⟩ := (List.suffix_concat_iff.mp ht).resolve_left hne
  rw [List.append_assoc, List.singleton_append]
  cases t with
  | nil => exact hnone
  | cons c t => exact h (c :: t) (List.cons_ne_nil c t) hsuf

theorem Gathered.tagless {text : Octets} (h : Gathered text []) : Tagless text := by
  intro t ht
  have hnone := h (60 :: t) (List.cons_ne_nil 60 t) ht
  rw [List.append_nil] at hnone
  exact not_piece hnone

/-- In front of a delimiter every `<` of the text has a `>` behind it, so it comes at once. -/
theorem Gathered.plain {text s : Octets} (h : Gathered text (60 :: s)) (hgt : 62 ∈ s) : Plain text := by
  intro t ht
  rcases not_piece (h (60 :: t) (List.cons_ne_nil 60 t) ht) with hnone | ⟨rest, hrest⟩
  · exact absurd (List.mem_append_right t (List.mem_cons_of_mem 60 hgt)) hnone
  · cases t with
    | nil =>
      injection hrest with hfirst
      cases hfirst
    | cons c t =>
      injection hrest with hfirst
      exact ⟨t, by rw [hfirst]; rfl⟩

theorem wellSplit_pregSplit (skip : Nat) (text s : Octets) (h : Gathered text (s.drop skip)) :
    WellSplit (pregSplit (Re.matchLength piecePattern) skip text s) := by
  -- induction on what is left; the text gathered so far has no start of a piece
  induction s generalizing skip text with
  | nil =>
    rw [List.drop_nil] at h
    rw [pregSplit]
    split
    · trivial
    · exact ⟨.inr ⟨h.tagless, .inl rfl⟩, trivial⟩
  | cons b s ih =>
    cases skip with
    | succ skip => exact ih skip text h
    | zero =>
      rw [List.drop_zero] at h
      rw [pregSplit]
      split
      · next length hlength =>
        obtain ⟨u, hne, hu, htoken⟩ := matches_piecePattern_iff.mp (Re.matches_of_matchLength hlength)
        have hpieces : WellSplit ((b :: s).take (length + 1) ::
            pregSplit (Re.matchLength piecePattern) length [] s) := by
          refine ⟨.inl ⟨60 :: u, htoken, ?_⟩, ih length [] (gathered_nil _)⟩
          rw [List.mem_cons, not_or]
          exact ⟨by decide, hu⟩
        dsimp only
        split
        · exact hpieces
        · rw [List.take_succ_cons, List.cons_append] at htoken
          injection htoken with hb hs
          subst hb
          have hgt : 62 ∈ s := by
            apply List.take_subset length
            rw [hs]
            exact List.mem_append_right u List.mem_cons_self
          have hplain : Plain text := h.plain hgt
          exact ⟨.inr ⟨fun t ht => .inr (hplain t ht), .inr hplain⟩, hpieces⟩
      · next hmiss => exact ih 0 _ (h.snoc (Re.matchLength_eq_none_of_miss nullable_piecePattern hmiss))

theorem wellSplit_contents (html : Octets) : WellSplit (contents html) :=
  wellSplit_pregSplit 0 [] html (gathered_nil html)

/-- A token has one tag at most, and a text none. -/
theorem tagsFrom_length_le_one {tag s : Octets} (htag : IsToken tag ∨ Tagless tag) (hs : s <+: tag)
    {m : Mode} (hm : m.Settled) : (tagsFrom isSingle m s).length ≤ 1 := by
  rcases htag with ⟨u, rfl, hu⟩ | htag
  · calc (tagsFrom isSingle m s).length
        ≤ s.count 62 := tagsFrom_length_le m s
      _ ≤ (u ++ [62]).count 62 := hs.sublist.count_le 62
      _ = 1 := by rw [List.count_append, List.count_eq_zero.mpr hu]; rfl
  · obtain ⟨t, rfl⟩ := hs
    have hnone := @tagsFrom_of_tagless isSingle _ htag m hm
    rw [tagsFrom_append, List.append_eq_nil_iff] at hnone
    rw [hnone.1]
    exact Nat.zero_le 1

theorem settled_token (m : Mode) (s : Octets) : (m.after (s ++ [62])).Settled := by
  rw [after_append]
  exact settled_next

/-- Behind a whole piece with others to come there is text or a comment. -/
theorem settled_piece {tag : Octets} (htag : IsToken tag ∨ Plain tag) {m : Mode} (hm : m.Settled) :
    (m.after tag).Settled := by
  rcases htag with ⟨u, rfl, -⟩ | htag
  · exact settled_token m u
  · exact settled_of_plain htag hm

/-- The names that are read from a piece are words. -/
theorem word_groups {pattern : Re UInt8}
    (hgroups : Re.GroupsAll (fun u => ∀ b ∈ u, isWord b = true) pattern) {tag : Octets}
    {found : Re.Position UInt8} (h : Re.search pattern tag = some found) :
    ∀ b ∈ found.groups.headD [], isWord b = true := by
  have hall := Re.groups_search hgroups h
  cases hfound : found.groups with
  | nil => exact List.forall_mem_nil _
  | cons u groups =>
    rw [hfound] at hall
    exact hall u List.mem_cons_self

theorem word_of_opening {tag name : Octets} (h : reading tag = .opening name) :
    ∀ b ∈ name, isWord b = true := by
  have hgroups : Re.GroupsAll (fun u => ∀ b ∈ u, isWord b = true) openPattern :=
    ⟨Re.groupsAll_literal _ _ _, ⟨fun _ hu => (Re.matches_plus_atom_iff.mp hu).2, trivial, trivial⟩,
      trivial, Re.groupsAll_literal _ _ _⟩
  rw [reading] at h
  split at h
  · cases h
  split at h
  · cases h
  split at h
  · next found hfound =>
    injection h with h
    rw [← h]
    exact word_groups hgroups hfound
  · split at h
    · cases h
    · split at h <;> cases h

/-! The run. -/

/-- The stack holds words. -/
def WordStack (σ : Completion) : Prop := ∀ name ∈ σ.tagStack, ∀ b ∈ name, isWord b = true

/-- What holds before every piece. -/
structure Sound (σ : Completion) : Prop where
  settled : σ.mode.Settled
  words : WordStack σ

theorem isToken_closeTag {name : Octets} (h : ∀ b ∈ name, isWord b = true) : IsToken (closeTag name) :=
  ⟨[60, 47] ++ name, rfl, not_mem_front h⟩

variable {php : Php} {o : Options} {σ : Completion}

theorem mode_append {τ : Completion} {s : Octets} (h : τ.result = σ.result ++ s) :
    τ.mode = σ.mode.after s := by
  rw [Completion.mode, h, after_append]
  rfl

theorem WordStack.word_end (hσ : WordStack σ) : ∀ b ∈ σ.tagStack.headD [], isWord b = true := by
  cases hstack : σ.tagStack with
  | nil => exact List.forall_mem_nil _
  | cons name tagStack => exact hσ name (by rw [hstack]; exact List.mem_cons_self)

theorem WordStack.closeNear (hσ : WordStack σ) : WordStack (closeNear php o σ) := by
  rw [AutoComplete.closeNear]
  split
  · exact fun name hname => hσ name (List.tail_subset _ hname)
  · exact hσ

theorem WordStack.openTag (hσ : WordStack σ) {name : Octets} (hname : ∀ b ∈ name, isWord b = true)
    (tag : Octets) : WordStack (openTag php o σ name tag) := by
  have hlowered : ∀ b ∈ matchLower o name, isWord b = true := by
    rw [matchLower]
    split
    · intro b hb
      obtain ⟨c, hc, rfl⟩ := List.mem_map.mp hb
      rw [isWord_lower]
      exact hname c hc
    · exact hname
  have hstack : (AutoComplete.openTag php o σ name tag).tagStack ⊆
      matchLower o name :: (AutoComplete.closeNear php o σ).tagStack := by
    rw [AutoComplete.openTag, foldl_popSingle o _ (fun _ h => h) (fun _ _ => rfl)]
    exact List.drop_subset _ _
  intro other hother
  rcases List.mem_cons.mp (hstack hother) with rfl | hother
  · exact hlowered
  · exact hσ.closeNear other hother

theorem WordStack.step (hσ : WordStack σ) (tag : Octets) : WordStack (step php o σ tag) := by
  rw [AutoComplete.step]
  split
  · exact hσ
  · exact hσ
  · next name hread => exact hσ.openTag (word_of_opening hread) tag
  · next name hread =>
    rw [endTag]
    split
    · exact fun name hname => hσ name (List.tail_subset _ hname)
    · exact hσ
  · exact hσ
  · exact hσ

theorem WordStack.loop (hσ : WordStack σ) (contents : List Octets) :
    WordStack (loop php o σ contents) := by
  induction contents generalizing σ with
  | nil => exact hσ
  | cons tag contents ih =>
    rw [AutoComplete.loop]
    split
    · exact hσ.step tag
    · exact ih (hσ.step tag)

theorem Sound.closeNear (hσ : Sound σ) : Sound (closeNear php o σ) := by
  refine ⟨?_, hσ.words.closeNear⟩
  rw [AutoComplete.closeNear]
  split
  · rw [mode_append rfl]
    exact settled_token _ _
  · exact hσ.settled

/-- A piece with others to come leaves the reader in text or in a comment. -/
theorem Sound.step (hσ : Sound σ) {tag : Octets} (htag : IsToken tag ∨ Plain tag)
    (hgoes : breaks php o σ tag = false) : Sound (step php o σ tag) := by
  refine ⟨?_, hσ.words.step tag⟩
  have hwhole : ∀ τ : Completion, τ.result = σ.result ++ tag → τ.mode.Settled := by
    intro τ hτ
    rw [mode_append hτ]
    exact settled_piece htag hσ.settled
  rw [AutoComplete.step]
  split
  · exact hwhole _ rfl
  · exact hwhole _ rfl
  · next name hread =>
    have hnear : Sound (AutoComplete.closeNear php o σ) := hσ.closeNear
    rw [openTag, mode_append rfl, after_renamed]
    exact settled_piece htag hnear.settled
  · next name hread =>
    rw [endTag]
    split
    · rw [mode_append rfl, after_renamed]
      exact settled_piece htag hσ.settled
    · exact hσ.settled
  · exact hwhole _ rfl
  · next hread =>
    apply hwhole
    have hfits : fits php o σ tag = true := by
      simpa [breaks, hread] using hgoes
    rw [cutText, if_pos hfits]

theorem prefix_cutText (tag : Octets) : cutText php o σ tag <+: tag := by
  rw [cutText]
  split
  · exact List.prefix_rfl
  · rw [mbSubstr]
    conv_rhs => rw [← php.flatten_characters tag]
    exact (List.take_prefix _ _).flatten

/-- What is put behind the output decides whether the stack still holds what is open. -/
theorem tracks_append_iff {τ : Completion} {s : Octets} (h : Tracks σ) (hτ : τ.result = σ.result ++ s) :
    Tracks τ ↔ nest σ.names (tagsFrom isSingle σ.mode s) = some τ.names := by
  rw [Tracks, hτ, tags, tagsFrom_append, nest_append, ← tags, h]
  rfl

/-- Something goes in as it is. -/
theorem tracks_same_iff {τ : Completion} {s : Octets} (hone : (tagsFrom isSingle σ.mode s).length ≤ 1)
    (h : Tracks σ) (hresult : τ.result = σ.result ++ s) (hstack : τ.tagStack = σ.tagStack) :
    Tracks τ ↔ tagsFrom isSingle σ.mode s = [] := by
  have hnames : τ.names = σ.names := congrArg (List.map _) hstack
  rw [tracks_append_iff h hresult, hnames, nest_eq_self_iff hone]

/-- Something goes in and the end of the stack goes. -/
theorem tracks_pop_iff {τ : Completion} {s : Octets} (hone : (tagsFrom isSingle σ.mode s).length ≤ 1)
    (h : Tracks σ) (hresult : τ.result = σ.result ++ s) (hstack : τ.tagStack = σ.tagStack.tail) :
    Tracks τ ↔ tagsFrom isSingle σ.mode s = closer σ.names := by
  have hnames : τ.names = σ.names.tail := by
    rw [Completion.names, Completion.names, hstack, List.map_tail]
  rw [tracks_append_iff h hresult, hnames, nest_eq_tail_iff hone]

theorem tracks_closeNear_iff (hσ : Sound σ) (h : Tracks σ) :
    Tracks (closeNear php o σ) ↔ (closesNear php o σ = true →
      tagsFrom isSingle σ.mode (closeTag (σ.tagStack.headD [])) = closer σ.names) := by
  rw [closeNear]
  split
  · next hnear =>
    have hone := tagsFrom_length_le_one (.inl (isToken_closeTag hσ.words.word_end)) List.prefix_rfl hσ.settled
    rw [forall_prop_of_true hnear]
    exact tracks_pop_iff hone h rfl rfl
  · next hnear => exact iff_of_true h fun hcloses => absurd hcloses hnear

theorem tracks_openTag_iff {name tag : Octets} (htag : IsToken tag ∨ Tagless tag) (hσ : Sound σ)
    (h : Tracks (closeNear php o σ)) :
    Tracks (openTag php o σ name tag) ↔ Pushes (closeNear php o σ).names (name.map lower) (singles tag)
      (tagsFrom isSingle (closeNear php o σ).mode tag) := by
  -- the lower case of the name changes neither the tags nor what `stripos` finds
  have hnear : Sound (closeNear php o σ) := hσ.closeNear
  have hone := tagsFrom_length_le_one htag List.prefix_rfl hnear.settled
  have hsame : ∀ singleTag ∈ singleTagArray, stripos (strReplace (octets "<" ++ name)
      (octets "<" ++ matchLower o name) tag) singleTag = stripos tag singleTag :=
    fun singleTag _ => stripos_congr (map_lower_renamed o _ name tag) singleTag
  have hnames : (openTag php o σ name tag).names =
      (name.map lower :: (closeNear php o σ).names).drop (singles tag) := by
    rw [Completion.names, openTag, foldl_popSingle o tag (fun _ h => h) hsame, singles, List.map_drop,
      List.map_cons, map_lower_matchLower]
    rfl
  rw [tracks_append_iff h rfl, tagsFrom_renamed, hnames, nest_eq_drop_iff hone]

theorem tracks_endTag_iff {name tag : Octets} (htag : IsToken tag ∨ Tagless tag) (hσ : Sound σ)
    (h : Tracks σ) : Tracks (endTag php o σ name tag) ↔
      (accepts php o σ name = true → tagsFrom isSingle σ.mode tag = closer σ.names) := by
  have hone := tagsFrom_length_le_one htag List.prefix_rfl hσ.settled
  rw [endTag]
  split
  · next haccepts =>
    rw [forall_prop_of_true haccepts, ← tagsFrom_renamed o σ.mode (octets "</") name tag]
    rw [← tagsFrom_renamed o σ.mode (octets "</") name tag] at hone
    exact tracks_pop_iff hone h rfl rfl
  · next haccepts => exact iff_of_true h fun haccepted => absurd haccepted haccepts

theorem step_mem_visited (tag : Octets) : step php o σ tag ∈ visited php o σ tag := by
  rw [visited]
  split
  · exact List.mem_cons_of_mem _ List.mem_cons_self
  · exact List.mem_cons_self

/-- From a `<` to a `>` that does not follow at once. -/
def Encloses (w : Octets) : Prop := ∃ t, w = 60 :: t ∧ 62 ∈ t ∧ ¬ [62] <+: t

theorem Encloses.not_inside {w tag : Octets} (hw : Encloses w) (htag : Tagless tag) : ¬ w <:+: tag := by
  obtain ⟨t, rfl, hgt, hnext⟩ := hw
  rintro ⟨p, q, rfl⟩
  have hsuf : 60 :: (t ++ q) <:+ p ++ 60 :: t ++ q := ⟨p, by simp⟩
  rcases htag _ hsuf with hnone | hfirst
  · exact hnone (List.mem_append_left q hgt)
  · cases t with
    | nil => cases hgt
    | cons b t =>
      apply hnext
      rw [List.cons_append, List.cons_prefix_cons] at hfirst
      rw [hfirst.1]
      exact List.prefix_append [b] t

/-- The three expressions for tags describe such texts. -/
theorem encloses_tag {front back : String} {p q : Octets} (hfront : octets front = 60 :: p)
    (hback : octets back = q ++ [62]) (hword : ∀ c ∈ (60 :: p) ++ (q ++ [62]), isWord c = false)
    (hp : 62 ∉ p) {w : Octets} (h : (Re.seq (lit front) (.seq (.group (.plus true word))
      (.seq inTag (lit back)))).Matches w) : Encloses w := by
  have hwords := List.forall_mem_append.mp hword
  simp only [Re.matches_seq_iff, Re.matches_group_iff, matches_lit hfront hwords.1,
    matches_lit hback hwords.2, word, Re.matches_plus_atom_iff] at h
  obtain ⟨_, _, rfl, ⟨name, _, ⟨hne, hname⟩, ⟨body, _, -, rfl, rfl⟩, rfl⟩, rfl⟩ := h
  refine ⟨p ++ (name ++ (body ++ (q ++ [62]))), rfl, by simp, ?_⟩
  rintro ⟨t, ht⟩
  cases p with
  | cons c p =>
    injection ht with hc
    exact hp (hc ▸ List.mem_cons_self)
  | nil =>
    -- the name comes first, and `>` is in no name
    cases name with
    | nil => exact hne rfl
    | cons b name =>
      injection ht with hb
      have hb62 := hname b List.mem_cons_self
      rw [← hb] at hb62
      cases hb62

theorem encloses_comment {w : Octets} (h : commentPattern.Matches w) : Encloses w := by
  have hfront : octets "<!--" = [60, 33, 45, 45] := octets_eq _
  have hback : octets "-->" = [45, 45, 62] := octets_eq _
  simp only [commentPattern, Re.matches_seq_iff, matches_lit hfront (by simp [isWord]),
    matches_lit hback (by simp [isWord])] at h
  obtain ⟨_, _, rfl, ⟨body, _, -, rfl, rfl⟩, rfl⟩ := h
  refine ⟨[33, 45, 45] ++ (body ++ [45, 45, 62]), rfl, by simp, ?_⟩
  rintro ⟨t, ht⟩
  injection ht with hfirst
  cases hfirst

/-- What is between the tokens is taken for text. -/
theorem reading_of_tagless {tag : Octets} (htag : Tagless tag) :
    reading tag = .blank ∨ reading tag = .text := by
  have hmiss : ∀ pattern : Re UInt8, (∀ w, pattern.Matches w → Encloses w) →
      Re.search pattern tag = none := by
    intro pattern hpattern
    rw [← Option.not_isSome_iff_eq_none, Re.search_isSome_iff]
    rintro ⟨w, hw, hinfix⟩
    exact (hpattern w hw).not_inside htag hinfix
  have hself : Re.search selfClosedPattern tag = none :=
    hmiss _ fun w => @encloses_tag "<" "/>" [] [47] (octets_eq _) (octets_eq _)
      (by simp [isWord]) (by decide) w
  have hopen : Re.search openPattern tag = none :=
    hmiss _ fun w => @encloses_tag "<" ">" [] [] (octets_eq _) (octets_eq _)
      (by simp [isWord]) (by decide) w
  have hclose : Re.search closePattern tag = none :=
    hmiss _ fun w => @encloses_tag "</" ">" [47] [] (octets_eq _) (octets_eq _)
      (by simp [isWord]) (by decide) w
  have hcomment : Re.search commentPattern tag = none := hmiss _ fun w => encloses_comment
  rw [reading, hself, hopen, hclose, hcomment]
  split
  · exact .inl rfl
  · exact .inr rfl

/-- It is always regular, so irregular pieces are tokens. -/
theorem regular_of_tagless {tag : Octets} (htag : Tagless tag) (hσ : Sound σ) : Regular php o σ tag := by
  rw [Regular]
  rcases reading_of_tagless htag with hread | hread
  · rw [hread]
    exact tagsFrom_of_tagless htag hσ.settled
  · rw [hread]
    obtain ⟨t, ht⟩ := @prefix_cutText php o σ tag
    have hnone := @tagsFrom_of_tagless isSingle _ htag _ hσ.settled
    rw [← ht, tagsFrom_append, List.append_eq_nil_iff] at hnone
    exact hnone.1

/-- One piece: the stack goes on to hold what is open exactly when the piece is regular. -/
theorem step_tracks_iff {tag : Octets} (htag : IsToken tag ∨ Tagless tag) (hσ : Sound σ) (h : Tracks σ) :
    (∀ τ ∈ visited php o σ tag, Tracks τ) ↔ Regular php o σ tag := by
  have hone : ∀ s, s <+: tag → (tagsFrom isSingle σ.mode s).length ≤ 1 :=
    fun s hs => tagsFrom_length_le_one htag hs hσ.settled
  rw [visited, Regular, step]
  cases reading tag with
  | opening name =>
    simp only [List.forall_mem_cons, List.not_mem_nil, false_imp_iff, implies_true, and_true]
    rw [← tracks_closeNear_iff hσ h]
    exact and_congr_right fun hnear => tracks_openTag_iff htag hσ hnear
  | closing name => exact List.forall_mem_singleton.trans (tracks_endTag_iff htag hσ h)
  | text =>
    have hcut : cutText php o σ tag <+: tag := prefix_cutText tag
    exact List.forall_mem_singleton.trans (tracks_same_iff (hone _ hcut) h rfl rfl)
  | _ => exact List.forall_mem_singleton.trans (tracks_same_iff (hone tag List.prefix_rfl) h rfl rfl)

/-- The run: so it is from the start to the end. -/
theorem steps_tracks_iff {contents : List Octets} (hcontents : WellSplit contents) (hσ : Sound σ)
    (h : Tracks σ) :
    (∀ x ∈ steps php o σ contents, ∀ τ ∈ visited php o x.1 x.2, Tracks τ) ↔
      ∀ x ∈ steps php o σ contents, Regular php o x.1 x.2 := by
  induction contents generalizing σ with
  | nil => exact iff_of_true (List.forall_mem_nil _) (List.forall_mem_nil _)
  | cons tag contents ih =>
    obtain ⟨htag, hcontents⟩ := hcontents
    have hpiece : IsToken tag ∨ Tagless tag := htag.imp_right And.left
    rw [steps, List.forall_mem_cons, List.forall_mem_cons, ← step_tracks_iff hpiece hσ h]
    refine and_congr_right fun hvisited => ?_
    split
    · exact iff_of_true (List.forall_mem_nil _) (List.forall_mem_nil _)
    · next hgoes =>
      cases contents with
      | nil => exact iff_of_true (List.forall_mem_nil _) (List.forall_mem_nil _)
      | cons next contents =>
        -- only the last text may break off in a tag, and this one is not the last
        have hplain : IsToken tag ∨ Plain tag :=
          htag.imp_right fun htext => htext.2.resolve_left (List.cons_ne_nil next contents)
        exact ih hcontents (hσ.step hplain (Bool.not_eq_true _ ▸ hgoes))
          (hvisited _ (step_mem_visited tag))

theorem tracks_loop {contents : List Octets} (h : Tracks σ)
    (hsteps : ∀ x ∈ steps php o σ contents, ∀ τ ∈ visited php o x.1 x.2, Tracks τ) :
    Tracks (loop php o σ contents) := by
  induction contents generalizing σ with
  | nil => exact h
  | cons tag contents ih =>
    rw [steps, List.forall_mem_cons] at hsteps
    have hstep : Tracks (step php o σ tag) := hsteps.1 _ (step_mem_visited tag)
    rw [loop]
    split
    · exact hstep
    · next hgoes =>
      rw [if_neg hgoes] at hsteps
      exact ih hstep hsteps.2

/-- The end: what is open is closed exactly when the first closing tag is read as one. -/
theorem nested_iff_finishes (hσ : WordStack σ) (h : Tracks σ) :
    Nested (tags isSingle (σ.result ++ σ.tagStack.flatMap closeTag)) ↔ Finishes σ := by
  rw [nested_iff, tags, tagsFrom_append, nest_append, ← tags, h]
  exact nest_closeTags_iff hσ σ.mode

/-- In every state that the run reaches the stack holds what is open in the output, and
    the tags of the whole output are properly nested, exactly when every piece that the
    run comes to is regular and the first closing tag at the end is read as one. -/
theorem tracks_iff_regular (php : Php) (o : Options) (html : Octets) :
    ((∀ x ∈ steps php o start (contents html), ∀ τ ∈ visited php o x.1 x.2, Tracks τ) ∧
        Nested (tags isSingle (autoCompleteUnclosedTag php o html))) ↔
      (∀ x ∈ steps php o start (contents html), Regular php o x.1 x.2) ∧
        Finishes (loop php o start (contents html)) := by
  have hsound : Sound start := ⟨trivial, List.forall_mem_nil _⟩
  have htracks : Tracks start := rfl
  rw [← steps_tracks_iff (wellSplit_contents html) hsound htracks]
  refine and_congr_right fun hsteps => ?_
  exact nested_iff_finishes (hsound.words.loop _) (tracks_loop htracks hsteps)

/-- One byte a character, and numbers equal if they are written alike. -/
def singleByte : Php where
  sameNumber s t := s = t
  characters s := s.map fun b => [b]
  flatten_characters s := by
    induction s with
    | nil => rfl
    | cons b s ih => rw [List.map_cons, List.flatten_cons, ih, List.singleton_append]

/-- A slash in an attribute hides an opening tag, which is never closed. So does a name
    that starts like a single one. The closing of the tag before closes nothing behind a
    single tag. A text that breaks off in a tag takes up the first closing tag. -/
theorem autoCompleteUnclosedTag_not_nested :
    (autoCompleteUnclosedTag singleByte {} (octets "<a href='/x'>y</a>") = octets "<a href='/x'>y" ∧
      ¬ Nested (tags isSingle (octets "<a href='/x'>y"))) ∧
    (autoCompleteUnclosedTag singleByte {} (octets "<metadata>y</metadata>") = octets "<metadata>y" ∧
      ¬ Nested (tags isSingle (octets "<metadata>y"))) ∧
    (autoCompleteUnclosedTag singleByte { type := octets "CLOSE" } (octets "<br><p>y</p>") =
        octets "<br></><p>y</p>" ∧
      ¬ Nested (tags isSingle (octets "<br></><p>y</p>"))) ∧
    (autoCompleteUnclosedTag singleByte {} (octets "<p>y <b") = octets "<p>y <b</p>" ∧
      ¬ Nested (tags isSingle (octets "<p>y <b</p>"))) := by
  decide +kernel

example : ∀ x ∈ steps singleByte {} start (contents (octets "<DIV><p>a<br>b</div>")),
    Regular singleByte {} x.1 x.2 := by
  decide +kernel

-- two pieces that are read wrongly and make up for each other
example :
    Nested (tags isSingle (autoCompleteUnclosedTag singleByte {} (octets "<a href='/x'>y</a/>"))) ∧
      ¬ ∀ x ∈ steps singleByte {} start (contents (octets "<a href='/x'>y</a/>")),
        Regular singleByte {} x.1 x.2 := by
  decide +kernel

end RubbishStore.Util.AutoComplete
