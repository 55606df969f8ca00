import RubbishStore.Lib.Tags
import RubbishStore.Util.CutHtmlStack

/- Which closing tags `cutHTML` puts behind the text that it keeps. A document is a list of
   bytes and tags, properly nested; the elements that are open behind a beginning of it are
   a stack of names (`openTags`). The stack of the scan holds as many names or more, and
   more as soon as a void tag or a closing tag has been taken for an opening one
   (`Stacked`). So the tags that are put in are the right ones just when an element is
   open, no tag has been mistaken, and every open element has been recorded with its name
   and nothing more (`Closable`). Where a higher byte has taken a `<` or a `>` along
   (`Swallows`), they can still be the right ones by accident. -/
namespace RubbishStore.Util.CutHtml
open RubbishStore.Lib RubbishStore.Lib.Tags

/-! Documents. -/

def isSpace (b : UInt8) : Bool := b = 32 || b = 9 || b = 10 || b = 12 || b = 13

/-- What the name of an element is made of. -/
def isNameByte (b : UInt8) : Bool := b ≤ 127 && !isSpace b && b ≠ 47 && b ≠ 60 && b ≠ 62

def IsName (name : Octets) : Prop := name ≠ [] ∧ ∀ b ∈ name, isNameByte b = true

/-- `br`, `hr` and `input`, in any letter case. -/
def isVoid (name : Octets) : Bool := arrSelfCloseTag.contains (name.map lower)

/-- A byte outside of tags, or a tag, with all that stands behind its name. -/
inductive Token where
  | byte (b : UInt8)
  | opening (name attrs : Octets)
  | void (name attrs : Octets)
  | closing (name space : Octets)

namespace Token

def html : Token → Octets
  | byte b => [b]
  | opening name attrs => 60 :: (name ++ (attrs ++ [62]))
  | void name attrs => 60 :: (name ++ (attrs ++ [62]))
  | closing name space => 60 :: 47 :: (name ++ (space ++ [62]))

/-- Attributes start with white space; a void tag may have a slash at its end, at once or
    behind them. -/
def WellFormed : Token → Prop
  | byte b => b ≠ 60
  | opening name attrs => IsName name ∧ isVoid name = false ∧ 60 ∉ attrs ∧
      ∀ b, attrs.head? = some b → isSpace b = true
  | void name attrs => IsName name ∧ isVoid name = true ∧ 60 ∉ attrs ∧
      ∀ b, attrs.head? = some b → isSpace b = true ∨ b = 47
  | closing name space => IsName name ∧ ∀ b ∈ space, isSpace b = true

/-- What the token opens or closes. -/
def tags : Token → List Tag
  | byte _ => []
  | opening name _ => [.opening (name.map lower)]
  | void _ _ => []
  | closing name _ => [.closing (name.map lower)]

/-- The open elements, the innermost first, each with its name and its attributes. -/
def after (open' : List (Octets × Octets)) : Token → List (Octets × Octets)
  | opening name attrs => (name, attrs) :: open'
  | closing _ _ => open'.tail
  | byte _ => open'
  | void _ _ => open'

end Token

def html (tokens : List Token) : Octets := tokens.flatMap Token.html

def openTags (tokens : List Token) : List (Octets × Octets) := tokens.foldl Token.after []

/-- Every element that is opened is closed, in the order of nesting. -/
structure Document where
  tokens : List Token
  wellFormed : ∀ t ∈ tokens, t.WellFormed
  nested : Nested (tokens.flatMap Token.tags)

/-- Nothing, or a blank, is behind the name. -/
def startsPlain (attrs : Octets) : Prop := ∀ b, attrs.head? = some b → b = 32

/-- A void tag that is known as one, and a closing tag that is taken for one. -/
def Token.Regular : Token → Prop
  | byte _ => True
  | opening _ _ => True
  | void name attrs => name ∈ arrSelfCloseTag ∧ startsPlain attrs
  | closing _ space => 32 ∉ space

section
variable (stripTags : Octets → Octets) (intLength : Int) (strLast : Octets) (doc : Document)

/-- The result is a beginning of the document, with the elements closed that are open
    behind it, the innermost first, and the ellipsis. -/
def Completes : Prop :=
  ∃ fuel st front back, doc.tokens = front ++ back ∧
    scanLoop (html doc.tokens) (intLength - strLast.length) fuel {} = some st ∧ st.strCut = html front ∧
    cutText stripTags intLength strLast fuel (html doc.tokens) =
      some (html front ++ (openTags front).flatMap (fun o => closeTag o.1) ++ strLast, st.read)

/-- The text is cut inside an element. Up to the cut no higher byte takes the end of a tag
    along, every void tag is known, no closing tag has a blank in it, and every element that
    is open still has nothing but a blank behind its name. -/
def Closable (room : Int) : Prop :=
  ∃ front back us, doc.tokens = front ++ back ∧ text us = html front ∧ FirstToShow room us ∧ Aligned us ∧
    openTags front ≠ [] ∧ (∀ t ∈ front, t.Regular) ∧ ∀ o ∈ openTags front, startsPlain o.2

/-- Up to the cut a higher byte takes a `<` or a `>` along with it. -/
def Swallows (room : Int) : Prop :=
  ∃ us, text us <+: html doc.tokens ∧ FirstToShow room us ∧ ¬ Aligned us

end

theorem wellFormed_bytes {s : Octets} (h : 60 ∉ s) : ∀ t ∈ s.map Token.byte, t.WellFormed := by
  intro t ht
  obtain ⟨b, hb, rfl⟩ := List.mem_map.mp ht
  exact fun he => h (he ▸ hb)

theorem html_append (ts us : List Token) : html (ts ++ us) = html ts ++ html us := List.flatMap_append

theorem html_concat (ts : List Token) (t : Token) : html (ts ++ [t]) = html ts ++ t.html := by
  rw [html_append, html, html, List.flatMap_singleton]

theorem openTags_concat (ts : List Token) (t : Token) : openTags (ts ++ [t]) = t.after (openTags ts) := by
  rw [openTags, List.foldl_append]
  rfl

/-- An open element has been opened. -/
theorem mem_openTags {ts : List Token} {o : Octets × Octets} (h : o ∈ openTags ts) :
    Token.opening o.1 o.2 ∈ ts := by
  induction ts using List.reverseRecOn with
  | nil => exact absurd h List.not_mem_nil
  | append_singleton ts t ih =>
    rw [openTags_concat] at h
    cases t with
    | opening name attrs =>
      rcases List.mem_cons.mp h with rfl | h
      · exact List.mem_append_right _ List.mem_cons_self
      · exact List.mem_append_left _ (ih h)
    | closing name space => exact List.mem_append_left _ (ih (List.mem_of_mem_tail h))
    | byte b => exact List.mem_append_left _ (ih h)
    | void name attrs => exact List.mem_append_left _ (ih h)

theorem nest_front {ts us : List Token} (h : nest [] ((ts ++ us).flatMap Token.tags) ≠ none) :
    nest [] (ts.flatMap Token.tags) ≠ none := by
  intro hnone
  rw [List.flatMap_append, nest_append, hnone] at h
  exact h rfl

/-- The names that are open are those of the open elements. -/
theorem nest_openTags {ts : List Token} (h : nest [] (ts.flatMap Token.tags) ≠ none) :
    nest [] (ts.flatMap Token.tags) = some ((openTags ts).map fun o => o.1.map lower) := by
  induction ts using List.reverseRecOn with
  | nil => rfl
  | append_singleton ts t ih =>
    have hbefore := ih (nest_front h)
    rw [List.flatMap_append, List.flatMap_singleton, nest_append, hbefore, Option.bind_some] at h ⊢
    rw [openTags_concat]
    cases t with
    | opening name attrs => rfl
    | byte b => rfl
    | void name attrs => rfl
    | closing name space =>
      cases hopen : openTags ts with
      | nil =>
        rw [hopen] at h
        exact absurd rfl h
      | cons o os =>
        rw [hopen] at h
        rw [Token.tags, List.map_cons, nest, nest] at h ⊢
        split at h
        · next hname => rw [if_pos hname]; rfl
        · exact absurd rfl h

/-- A closing tag that fits has an element to close. -/
theorem openTags_ne_nil {ts : List Token} {name space : Octets}
    (h : nest [] ((ts ++ [Token.closing name space]).flatMap Token.tags) ≠ none) : openTags ts ≠ [] := by
  intro hopen
  have hbefore := nest_openTags (nest_front h)
  rw [List.flatMap_append, nest_append, hbefore, hopen] at h
  exact h rfl

/-! Names. -/

theorem IsName.recorded {name : Octets} (h : IsName name) : ∀ b ∈ name, Recorded b := by
  intro b hb
  have hbyte := h.2 b hb
  simp only [isNameByte, isSpace, Bool.and_eq_true, Bool.not_eq_true', Bool.or_eq_false_iff,
    decide_eq_true_eq, decide_eq_false_iff_not] at hbyte
  exact ⟨hbyte.1.1.1.1, hbyte.1.1.1.2.1.1.1.1, hbyte.1.2, hbyte.2⟩

theorem recorded_space {b : UInt8} (h : isSpace b = true) (hb : b ≠ 32) : Recorded b := by
  have hall : ∀ b, isSpace b = true → b ≤ 127 ∧ b ≠ 60 ∧ b ≠ 62 := forall_byte (by decide +kernel)
  obtain ⟨hlow, hless, hgt⟩ := hall b h
  exact ⟨hlow, hb, hless, hgt⟩

theorem not_mem_of_recorded {w : Octets} (h : ∀ b ∈ w, Recorded b) : 62 ∉ w :=
  fun hmem => (h 62 hmem).2.2.2 rfl

theorem IsName.head_ne {name : Octets} (h : IsName name) : name.take 1 ≠ [47] := by
  intro htake
  have hmem : (47 : UInt8) ∈ name.take 1 := htake ▸ List.mem_cons_self
  exact absurd (h.2 47 (List.mem_of_mem_take hmem)) (by decide)

theorem isVoid_of_mem {name : Octets} (h : name ∈ arrSelfCloseTag) : isVoid name = true := by
  have hall : ∀ w ∈ arrSelfCloseTag, isVoid w = true := by decide +kernel
  exact hall name h

theorem opening_eq {arrTags : List Octets} {w : Octets} (hne : w ≠ []) (hw : w ∉ arrSelfCloseTag) :
    opening arrTags w = arrTags ++ [w] := by
  rw [opening, if_neg]
  intro h
  exact h.elim hne fun hmem => hw (List.contains_iff_mem.mp hmem)

theorem opening_void {arrTags : List Octets} {w : Octets} (hw : w ∈ arrSelfCloseTag) :
    opening arrTags w = arrTags :=
  if_pos (.inr (List.contains_iff_mem.mpr hw))

/-- What is heard of a tag: the name, if nothing or a blank is behind it, and else more. -/
structure Heard (name attrs w : Octets) : Prop where
  clean : 62 ∉ w
  ne_nil : w ≠ []
  eq_iff : w = name ↔ startsPlain attrs
  void_iff : w ∈ arrSelfCloseTag ↔ name ∈ arrSelfCloseTag ∧ startsPlain attrs

theorem heard_self {name attrs : Octets} (h : IsName name) (hplain : startsPlain attrs) :
    Heard name attrs name where
  clean := not_mem_of_recorded h.recorded
  ne_nil := h.1
  eq_iff := iff_of_true rfl hplain
  void_iff := (and_iff_left hplain).symm

theorem heard_more {name more attrs : Octets} {x : UInt8} (h : IsName name) (hx : isSpace x = true ∨ x = 47)
    (hgt : 62 ∉ more) (hplain : ¬ startsPlain attrs) : Heard name attrs (name ++ x :: more) where
  clean := by
    rw [List.mem_append, List.mem_cons, not_or, not_or]
    refine ⟨not_mem_of_recorded h.recorded, ?_, hgt⟩
    rintro rfl
    exact absurd hx (by decide)
  ne_nil := List.append_ne_nil_of_left_ne_nil h.1 _
  eq_iff := iff_of_false (fun he => List.cons_ne_nil x more (List.append_right_eq_self.mp he)) hplain
  void_iff := by
    refine iff_of_false (fun hmem => ?_) fun hand => hplain hand.2
    have hletters : ∀ w ∈ arrSelfCloseTag, ∀ b ∈ w, ¬ (isSpace b = true ∨ b = 47) := by decide +kernel
    exact hletters _ hmem x (List.mem_append_right name List.mem_cons_self) hx

/-! The pieces of a tag behind its `<`. -/

/-- An opening tag or a void one. -/
theorem run_tag {us : List Piece} {name attrs : Octets} (haligned : Aligned us)
    (h : text us = name ++ (attrs ++ [62])) (hname : IsName name) (hattrs : 60 ∉ attrs)
    (hhead : ∀ b, attrs.head? = some b → isSpace b = true ∨ b = 47) (arrTags : List Octets) :
    ∃ w, Heard name attrs w ∧
      TagState.run ⟨true, true, arrTags, []⟩ us = ⟨false, false, opening arrTags w, []⟩ := by
  obtain ⟨vs, hvs, htext, hrun⟩ := run_recorded hname.recorded haligned h arrTags []
  rw [hrun, List.nil_append]
  cases attrs with
  | nil =>
    refine ⟨name, heard_self hname (fun b hb => nomatch hb), ?_⟩
    rw [run_gt htext, ended, if_neg hname.head_ne]
  | cons x attrs =>
    rw [List.mem_cons, not_or] at hattrs
    by_cases hx : x = 32
    · subst hx
      refine ⟨name, heard_self hname fun b hb => (Option.some.inj hb).symm, ?_⟩
      exact run_blank hvs htext hattrs.2 arrTags name
    · have hkind := hhead x rfl
      have hb : Recorded x := by
        rcases hkind with hspace | rfl
        · exact recorded_space hspace hx
        · decide
      obtain ⟨u, us, rfl, hlead, hnarrow, hus⟩ := exists_narrow hb.1 htext
      have hne : name ++ [x] ≠ [] := List.append_ne_nil_of_left_ne_nil hname.1 _
      have hfront : (name ++ [x]).take 1 ≠ [47] := by
        rw [List.take_append_of_le_length (List.length_pos_iff.mpr hname.1)]
        exact hname.head_ne
      obtain ⟨more, hmore, hend⟩ := run_any hvs.tail hus hattrs.2 arrTags hne hfront
      refine ⟨name ++ x :: more, heard_more hname hkind hmore fun hplain => hx (hplain x rfl), ?_⟩
      rw [TagState.run_cons, TagState.piece_narrow hnarrow, hlead, next_recorded hb, hend, ← List.append_cons]

/-- A closing tag without a blank. -/
theorem run_closing {us : List Piece} {name space : Octets} (haligned : Aligned us)
    (h : text us = 47 :: (name ++ (space ++ [62]))) (hname : IsName name)
    (hspace : ∀ b ∈ space, isSpace b = true) (hblank : 32 ∉ space) (arrTags : List Octets) :
    TagState.run ⟨true, true, arrTags, []⟩ us = ⟨false, false, arrTags.dropLast, []⟩ := by
  have hall : ∀ b ∈ 47 :: (name ++ space), Recorded b := by
    intro b hb
    rcases List.mem_cons.mp hb with rfl | hb
    · decide
    · rcases List.mem_append.mp hb with hb | hb
      · exact hname.recorded b hb
      · exact recorded_space (hspace b hb) fun he => hblank (he ▸ hb)
  have hslash : (47 :: (name ++ space)).take 1 = [47] := rfl
  rw [← List.append_assoc, ← List.cons_append] at h
  obtain ⟨vs, hvs, htext, hrun⟩ := run_recorded hall haligned h arrTags []
  rw [hrun, List.nil_append, run_gt htext, ended, if_pos hslash]

/-- With a blank it is taken for an opening one. -/
theorem run_closing_blank {us : List Piece} {name space : Octets} (haligned : Aligned us)
    (h : text us = 47 :: (name ++ (space ++ [62]))) (hname : IsName name)
    (hspace : ∀ b ∈ space, isSpace b = true) (hblank : 32 ∈ space) (arrTags : List Octets) :
    ∃ w, 62 ∉ w ∧ TagState.run ⟨true, true, arrTags, []⟩ us = ⟨false, false, arrTags ++ [w], []⟩ := by
  obtain ⟨before, behind, hsplit, hfirst⟩ := List.eq_append_cons_of_mem hblank
  have hall : ∀ b ∈ 47 :: (name ++ before), Recorded b := by
    intro b hb
    rcases List.mem_cons.mp hb with rfl | hb
    · decide
    · rcases List.mem_append.mp hb with hb | hb
      · exact hname.recorded b hb
      · exact recorded_space (hspace b (hsplit ▸ List.mem_append_left _ hb)) fun he => hfirst (he ▸ hb)
  have hless : 60 ∉ behind := by
    intro hmem
    have hbyte := hspace 60 (hsplit ▸ List.mem_append_right before (List.mem_cons_of_mem 32 hmem))
    exact absurd hbyte (by decide)
  have htext : text us = (47 :: (name ++ before)) ++ 32 :: (behind ++ [62]) := by
    rw [h, hsplit]
    simp only [List.append_assoc, List.cons_append]
  obtain ⟨vs, hvs, hrest, hrun⟩ := run_recorded hall haligned htext arrTags []
  have hvoid : 47 :: (name ++ before) ∉ arrSelfCloseTag := by
    intro hmem
    have hletters : ∀ w ∈ arrSelfCloseTag, 47 ∉ w := by decide +kernel
    exact hletters _ hmem List.mem_cons_self
  refine ⟨47 :: (name ++ before), not_mem_of_recorded hall, ?_⟩
  rw [hrun, List.nil_append, run_blank hvs hrest hless, opening_eq (List.cons_ne_nil _ _) hvoid]

/-- Outside of tags. -/
theorem piece_text {u : Piece} (h : u.lead ≠ 60) (arrTags : List Octets) :
    TagState.piece ⟨false, false, arrTags, []⟩ u = ⟨false, false, arrTags, []⟩ := by
  rw [TagState.piece]
  split
  · rfl
  · simp [TagState.next, h]

/-! The stack of the scan and the open elements. -/

/-- There are as many names on the stack as elements open, or more; no more only if no tag
    has been mistaken, and then they are the names of the elements as far as those are
    heard as they are. -/
structure Stacked (front : List Token) (names : List Octets) : Prop where
  clean : ∀ w ∈ names, 62 ∉ w
  length_le : (openTags front).length ≤ names.length
  regular : names.length = (openTags front).length → ∀ t ∈ front, t.Regular
  heard : (∀ t ∈ front, t.Regular) → List.Forall₂ (fun w o => w = o.1 ↔ startsPlain o.2) names (openTags front)

namespace Stacked
variable {front : List Token} {names : List Octets}

theorem start : Stacked [] [] where
  clean := fun _ hw => absurd hw List.not_mem_nil
  length_le := Nat.le_refl 0
  regular := fun _ _ ht => absurd ht List.not_mem_nil
  heard := fun _ => .nil

/-- A token that opens nothing, and is known to. -/
theorem same (h : Stacked front names) {t : Token} (ht : t.Regular) (hafter : ∀ os, t.after os = os) :
    Stacked (front ++ [t]) names where
  clean := h.clean
  length_le := by
    rw [openTags_concat, hafter]
    exact h.length_le
  regular := by
    rw [openTags_concat, hafter]
    intro hlength
    exact List.forall_mem_append.mpr ⟨h.regular hlength, List.forall_mem_singleton.mpr ht⟩
  heard := by
    rw [openTags_concat, hafter]
    exact fun hall => h.heard (List.forall_mem_append.mp hall).1

theorem bytes (h : Stacked front names) (w : Octets) : Stacked (front ++ w.map .byte) names := by
  induction w using List.reverseRecOn with
  | nil => exact (List.append_nil front).symm ▸ h
  | append_singleton w b ih =>
    rw [List.map_append, ← List.append_assoc]
    exact ih.same trivial fun os => rfl

theorem opening (h : Stacked front names) {name attrs w : Octets} (hw : Heard name attrs w) :
    Stacked (front ++ [.opening name attrs]) (w :: names) where
  clean := List.forall_mem_cons.mpr ⟨hw.clean, h.clean⟩
  length_le := by
    rw [openTags_concat]
    exact Nat.succ_le_succ h.length_le
  regular := by
    rw [openTags_concat]
    intro hlength
    exact List.forall_mem_append.mpr ⟨h.regular (Nat.succ.inj hlength), List.forall_mem_singleton.mpr trivial⟩
  heard := by
    rw [openTags_concat]
    exact fun hall => .cons hw.eq_iff (h.heard (List.forall_mem_append.mp hall).1)

theorem closing (h : Stacked front names) {name space : Octets} (hblank : 32 ∉ space)
    (hopen : openTags front ≠ []) : Stacked (front ++ [.closing name space]) names.tail where
  clean := fun w hw => h.clean w (List.mem_of_mem_tail hw)
  length_le := by
    rw [openTags_concat, List.length_tail, Token.after, List.length_tail]
    exact Nat.sub_le_sub_right h.length_le 1
  regular := by
    rw [openTags_concat, List.length_tail, Token.after, List.length_tail]
    intro hlength
    have hpos := List.length_pos_iff.mpr hopen
    have hle := h.length_le
    exact List.forall_mem_append.mpr ⟨h.regular (by omega), List.forall_mem_singleton.mpr hblank⟩
  heard := by
    rw [openTags_concat, Token.after, ← List.drop_one, ← List.drop_one]
    exact fun hall => List.forall₂_drop 1 (h.heard (List.forall_mem_append.mp hall).1)

/-- A tag that is mistaken for an opening one. -/
theorem mistaken (h : Stacked front names) {t : Token} {w : Octets} (ht : ¬ t.Regular) (hw : 62 ∉ w)
    (hafter : ∀ os, (t.after os).length ≤ os.length) : Stacked (front ++ [t]) (w :: names) where
  clean := List.forall_mem_cons.mpr ⟨hw, h.clean⟩
  length_le := by
    rw [openTags_concat]
    exact Nat.le_succ_of_le ((hafter _).trans h.length_le)
  regular := by
    rw [openTags_concat, List.length_cons]
    intro hlength
    have hmore := hafter (openTags front)
    have hle := h.length_le
    omega
  heard := fun hall => absurd (hall t (List.mem_append_right _ List.mem_cons_self)) ht

end Stacked

/-- A tag, from its `<` on. -/
theorem run_token {us : List Piece} {front : List Token} {t : Token} {s : Octets} {names : List Octets}
    (haligned : Aligned us) (h : t.html = 60 :: s) (htext : text us = s) (ht : t.WellFormed)
    (hnest : nest [] ((front ++ [t]).flatMap Token.tags) ≠ none) (hbefore : Stacked front names) :
    ∃ names', TagState.run ⟨true, true, names.reverse, []⟩ us = ⟨false, false, names'.reverse, []⟩ ∧
      Stacked (front ++ [t]) names' := by
  cases t with
  | byte b => exact absurd (List.cons.inj h).1 ht
  | opening name attrs =>
    obtain ⟨hname, hvoid, hattrs, hhead⟩ := ht
    rw [← (List.cons.inj h).2] at htext
    obtain ⟨w, hw, hrun⟩ := run_tag haligned htext hname hattrs (fun b hb => .inl (hhead b hb)) names.reverse
    have hnone : w ∉ arrSelfCloseTag := by
      intro hmem
      rw [isVoid_of_mem (hw.void_iff.mp hmem).1] at hvoid
      cases hvoid
    refine ⟨w :: names, ?_, hbefore.opening hw⟩
    rw [hrun, opening_eq hw.ne_nil hnone, List.reverse_cons]
  | void name attrs =>
    obtain ⟨hname, -, hattrs, hhead⟩ := ht
    rw [← (List.cons.inj h).2] at htext
    obtain ⟨w, hw, hrun⟩ := run_tag haligned htext hname hattrs hhead names.reverse
    by_cases hmem : w ∈ arrSelfCloseTag
    · refine ⟨names, ?_, hbefore.same (hw.void_iff.mp hmem) fun os => rfl⟩
      rw [hrun, opening_void hmem]
    · refine ⟨w :: names, ?_, hbefore.mistaken (fun ht => hmem (hw.void_iff.mpr ht)) hw.clean fun os =>
        Nat.le_refl _⟩
      rw [hrun, opening_eq hw.ne_nil hmem, List.reverse_cons]
  | closing name space =>
    obtain ⟨hname, hspace⟩ := ht
    rw [← (List.cons.inj h).2] at htext
    by_cases hblank : 32 ∈ space
    · obtain ⟨w, hw, hrun⟩ := run_closing_blank haligned htext hname hspace hblank names.reverse
      refine ⟨w :: names, ?_, hbefore.mistaken (fun ht => ht hblank) hw fun os => ?_⟩
      · rw [hrun, List.reverse_cons]
      · rw [Token.after, List.length_tail]
        exact Nat.sub_le _ 1
    · refine ⟨names.tail, ?_, hbefore.closing hblank (openTags_ne_nil hnest)⟩
      rw [run_closing haligned htext hname hspace hblank, List.dropLast_reverse]

/-- Every token but a byte ends with `>`. -/
theorem Token.html_cases (t : Token) : (∃ b, t = byte b) ∨ ∃ s, t.html = 60 :: s ++ [62] := by
  cases t with
  | byte b => exact .inl ⟨b, rfl⟩
  | opening name attrs => exact .inr ⟨name ++ attrs, by simp [Token.html]⟩
  | void name attrs => exact .inr ⟨name ++ attrs, by simp [Token.html]⟩
  | closing name space => exact .inr ⟨47 :: (name ++ space), by simp [Token.html]⟩

theorem html_eq_nil {ts : List Token} (h : html ts = []) : ts = [] := by
  cases ts with
  | nil => rfl
  | cons t ts =>
    have ht : t.html = [] := (List.append_eq_nil_iff.mp h).1
    obtain ⟨b, rfl⟩ | ⟨s, hs⟩ := t.html_cases
    · cases ht
    · rw [hs] at ht
      cases ht

/-- A last byte is a token of its own, or the end of a tag. -/
theorem html_concat_cases {ts : List Token} {s : Octets} {b : UInt8} (h : html ts = s ++ [b]) :
    (∃ front, ts = front ++ [.byte b] ∧ html front = s) ∨
      b = 62 ∧ ∃ front t body, ts = front ++ [t] ∧ t.html = 60 :: body ++ [62] ∧ s = html front ++ 60 :: body := by
  obtain rfl | ⟨front, t, rfl⟩ := List.eq_nil_or_concat' ts
  · exact absurd h.symm (List.append_ne_nil_of_right_ne_nil s (List.cons_ne_nil b []))
  · rw [html_concat] at h
    obtain ⟨c, rfl⟩ | ⟨body, hbody⟩ := t.html_cases
    · obtain ⟨hfront, hc⟩ := List.append_inj' h rfl
      exact .inl ⟨front, by rw [(List.cons.inj hc).1], hfront⟩
    · rw [hbody, ← List.append_assoc] at h
      obtain ⟨hs, hb⟩ := List.append_inj' h rfl
      exact .inr ⟨(List.cons.inj hb).1.symm, front, t, body, rfl, hbody, hs.symm⟩

theorem html_concat_bytes {ts : List Token} {s w : Octets} (h : html ts = s ++ w) (hw : 62 ∉ w) :
    ∃ front, ts = front ++ w.map .byte ∧ html front = s := by
  induction w using List.reverseRecOn generalizing ts with
  | nil => exact ⟨ts, (List.append_nil ts).symm, by rw [h, List.append_nil]⟩
  | append_singleton w b ih =>
    rw [List.mem_append, not_or] at hw
    rw [← List.append_assoc] at h
    obtain ⟨front, rfl, hfront⟩ | ⟨rfl, -⟩ := html_concat_cases h
    · obtain ⟨front, rfl, hs⟩ := ih hfront hw.1
      exact ⟨front, by rw [List.append_assoc, List.map_append]; rfl, hs⟩
    · exact absurd List.mem_cons_self hw.2

/-- So a last piece is some tokens, or the end of a tag. -/
theorem html_concat_piece {ts : List Token} {s : Octets} {u : Piece} (hu : u.Aligned)
    (h : html ts = s ++ u.bytes) :
    (∃ front, ts = front ++ u.bytes.map .byte ∧ html front = s) ∨
      u.bytes = [62] ∧
        ∃ front t body, ts = front ++ [t] ∧ t.html = 60 :: body ++ [62] ∧ s = html front ++ 60 :: body := by
  by_cases hgt : u.lead = 62
  · have hone : u.bytes = [62] := by rw [Piece.bytes_narrow (by rw [hgt]; decide), hgt]
    rw [hone] at h ⊢
    exact (html_concat_cases h).imp_right fun htag => ⟨rfl, htag.2⟩
  · have hnone : 62 ∉ u.bytes := by
      rw [Piece.bytes, List.mem_cons, not_or]
      exact ⟨Ne.symm hgt, hu.2⟩
    exact .inl (html_concat_bytes h hnone)

/-- Behind the pieces of some tokens no tag is open, and the stack is one of theirs. -/
theorem stacked_tagState {us : List Piece} {front : List Token} (haligned : Aligned us) (h : text us = html front)
    (hwf : ∀ t ∈ front, t.WellFormed) (hnest : nest [] (front.flatMap Token.tags) ≠ none) :
    ∃ names, tagState us = ⟨false, false, names.reverse, []⟩ ∧ Stacked front names := by
  -- over the number of the pieces: a last piece is some bytes, or it ends a tag of several
  induction hn : us.length using Nat.strong_induction_on generalizing us front with
  | _ n ih =>
    obtain rfl | ⟨vs, u, rfl⟩ := List.eq_nil_or_concat' us
    · have hnone : front = [] := html_eq_nil h.symm
      exact ⟨[], rfl, hnone ▸ Stacked.start⟩
    · have hvs : Aligned vs := fun v hv => haligned v (List.mem_append_left _ hv)
      have hu : u.Aligned := haligned u (List.mem_append_right _ List.mem_cons_self)
      have hshort : vs.length < n := by
        rw [← hn, List.length_append]
        exact Nat.lt_succ_self _
      rw [text_concat] at h
      obtain ⟨ts, rfl, hts⟩ | ⟨hone, ts, t, body, rfl, hbody, hsplit⟩ := html_concat_piece hu h.symm
      · rw [List.forall_mem_append] at hwf
        obtain ⟨names, hstate, hstacked⟩ := ih _ hshort hvs hts.symm hwf.1 (nest_front hnest) rfl
        have hless : u.lead ≠ 60 := hwf.2 (.byte u.lead) (List.mem_map_of_mem List.mem_cons_self)
        refine ⟨names, ?_, hstacked.bytes u.bytes⟩
        rw [tagState_concat, hstate, piece_text hless]
      · rw [List.forall_mem_append, List.forall_mem_singleton] at hwf
        obtain ⟨as, v, bs, rfl, has, hless, hbs⟩ := exists_less hvs hsplit
        have hlength : as.length < n := by
          rw [List.length_append] at hshort
          exact Nat.lt_of_le_of_lt (Nat.le_add_right _ _) hshort
        have hbefore : Aligned as := fun w hw => hvs w (List.mem_append_left _ hw)
        obtain ⟨names, hstate, hstacked⟩ := ih _ hlength hbefore has hwf.1 (nest_front hnest) rfl
        have hbehind : Aligned (bs ++ [u]) := by
          intro w hw
          rcases List.mem_append.mp hw with hw | hw
          · exact hvs w (List.mem_append_right as (List.mem_cons_of_mem v hw))
          · exact haligned w (List.mem_append_right _ hw)
        have htext : text (bs ++ [u]) = body ++ [62] := by rw [text_concat, hbs, hone]
        obtain ⟨names', hrun, hstacked'⟩ := run_token hbehind hbody htext hwf.2 hnest hstacked
        have hnarrow : ¬ 127 < v.lead := by rw [hless]; decide
        refine ⟨names', ?_, hstacked'⟩
        rw [tagState, List.append_assoc, List.cons_append, TagState.run_append, ← tagState, hstate,
          TagState.run_cons, TagState.piece_narrow hnarrow, hless]
        exact hrun

/-! What is put behind the text. -/

def closers (names : List Octets) : Octets := octets "</" ++ (octets "></").intercalate names ++ octets ">"

theorem closed_eq {st : Scan} {names : List Octets} (h : st.arrTags = names.reverse) (strLast : Octets) :
    closed st strLast = st.strCut ++ closers names ++ strLast := by
  rw [closed, closers, h, List.reverse_reverse]
  simp only [List.append_assoc]

theorem closers_ne_nil (names : List Octets) : closers names ≠ [] :=
  List.append_ne_nil_of_right_ne_nil _ (by rw [octets_eq]; decide)

theorem closers_eq {names : List Octets} (h : names ≠ []) : closers names = names.flatMap closeTag := by
  have hless : octets "</" = [60, 47] := octets_eq _
  have hgt : octets ">" = [62] := octets_eq _
  have hboth : octets "></" = octets ">" ++ octets "</" := by rw [octets, octets, octets]; decide
  induction names with
  | nil => exact absurd rfl h
  | cons w names ih =>
    cases names with
    | nil => rw [closers, List.intercalate_singleton, List.flatMap_singleton, closeTag, hless, hgt]
    | cons v names =>
      have hrest := ih (List.cons_ne_nil v names)
      rw [closers] at hrest
      rw [closers, List.intercalate_cons_cons, List.flatMap_cons, ← hrest, closeTag, hboth, ← hless, ← hgt]
      simp only [List.append_assoc]

theorem eq_map_of_heard {names : List Octets} {os : List (Octets × Octets)}
    (h : List.Forall₂ (fun w o => w = o.1 ↔ startsPlain o.2) names os) (hplain : ∀ o ∈ os, startsPlain o.2) :
    names = os.map Prod.fst := by
  induction h with
  | nil => rfl
  | cons hw hrest ih =>
    rw [List.forall_mem_cons] at hplain
    rw [List.map_cons, hw.mpr hplain.1, ih hplain.2]

/-- With the names of the stack, the open elements are closed just when there is one, and
    all of them are on the stack and nothing else is. -/
theorem closers_iff {front : List Token} {names : List Octets} (h : Stacked front names)
    (hwf : ∀ t ∈ front, t.WellFormed) :
    closers names = (openTags front).flatMap (fun o => closeTag o.1) ↔
      openTags front ≠ [] ∧ (∀ t ∈ front, t.Regular) ∧ ∀ o ∈ openTags front, startsPlain o.2 := by
  have hsame : (openTags front).flatMap (fun o => closeTag o.1) =
      ((openTags front).map Prod.fst).flatMap closeTag := (List.flatMap_map _ _ _).symm
  have hclean : ∀ w ∈ (openTags front).map Prod.fst, 62 ∉ w := by
    intro w hw
    obtain ⟨o, ho, rfl⟩ := List.mem_map.mp hw
    exact not_mem_of_recorded (hwf _ (mem_openTags ho)).1.recorded
  rw [hsame]
  constructor
  · intro hclosers
    have hopen : openTags front ≠ [] := by
      intro hnone
      rw [hnone] at hclosers
      exact closers_ne_nil names hclosers
    have hnames : names ≠ [] := by
      rintro rfl
      exact hopen (List.eq_nil_of_length_eq_zero (Nat.le_zero.mp h.length_le))
    rw [closers_eq hnames] at hclosers
    have heq := closeTags_injective h.clean hclean hclosers
    have hregular := h.regular (by rw [heq, List.length_map])
    have hheard := h.heard hregular
    rw [heq, List.forall₂_map_left_iff, List.forall₂_same] at hheard
    exact ⟨hopen, hregular, fun o ho => (hheard o ho).mp rfl⟩
  · intro hcond
    obtain ⟨hopen, hregular, hplain⟩ := hcond
    have heq := eq_map_of_heard (h.heard hregular) hplain
    have hnames : names ≠ [] := by
      rw [heq]
      exact fun hnil => hopen (List.map_eq_nil_iff.mp hnil)
    rw [closers_eq hnames, heq]

section
variable {stripTags : Octets → Octets} {intLength : Int} {strLast : Octets} {doc : Document}

theorem Document.front_wellFormed {front back : List Token} (h : doc.tokens = front ++ back) :
    ∀ t ∈ front, t.WellFormed :=
  fun t ht => doc.wellFormed t (h ▸ List.mem_append_left back ht)

theorem Document.nest_front {front back : List Token} (h : doc.tokens = front ++ back) :
    nest [] (front.flatMap Token.tags) ≠ none := by
  have hnest := nested_iff.mp doc.nested
  rw [h] at hnest
  have hsome : nest [] ((front ++ back).flatMap Token.tags) ≠ none := hnest ▸ Option.some_ne_none []
  exact CutHtml.nest_front hsome

/-- Behind the whole document nothing is open. -/
theorem Document.openTags_eq (doc : Document) : openTags doc.tokens = [] := by
  have hnest := nested_iff.mp doc.nested
  have hopen := nest_openTags (hnest ▸ Option.some_ne_none [])
  rw [hnest] at hopen
  exact List.map_eq_nil_iff.mp (Option.some.inj hopen).symm

/-- What a scan has taken. -/
theorem Knows.strCut_text {mixData : Octets} {us : List Piece} {st : Scan} (h : Knows mixData us st)
    (hfront : text us <+: mixData) : st.strCut = text us := by
  rw [h.strCut_eq, h.behind.i_eq]
  exact (List.prefix_iff_eq_take.mp hfront).symm

/-- Where the scan is behind some tokens, its stack is one of theirs. -/
theorem Knows.stacked {us : List Piece} {st : Scan} (h : Knows (html doc.tokens) us st) {front back : List Token}
    (hsplit : doc.tokens = front ++ back) (htext : text us = html front) (haligned : Aligned us) :
    ∃ names, st.arrTags = names.reverse ∧ Stacked front names := by
  obtain ⟨names, hstate, hstacked⟩ :=
    stacked_tagState haligned htext (doc.front_wellFormed hsplit) (doc.nest_front hsplit)
  have hsame : st.tagState.arrTags = (tagState us).arrTags := congrArg TagState.arrTags (h.tagState_eq haligned)
  rw [hstate] at hsame
  exact ⟨names, hsame, hstacked⟩

theorem cutText_long (hlong : intLength < (stripTags (html doc.tokens)).length) {fuel : Nat} {st : Scan}
    (hloop : scanLoop (html doc.tokens) (intLength - strLast.length) fuel {} = some st) :
    cutText stripTags intLength strLast fuel (html doc.tokens) = some (closed st strLast, st.read) := by
  rw [cutText, if_neg (Int.not_le.mpr hlong), hloop]
  rfl

theorem completes_of_closable (hlong : intLength < (stripTags (html doc.tokens)).length)
    (h : Closable doc (intLength - strLast.length)) : Completes stripTags intLength strLast doc := by
  obtain ⟨front, back, us, hsplit, htext, hfirst, haligned, hcond⟩ := h
  have hfront : text us <+: html doc.tokens := by
    rw [hsplit, html_append, htext]
    exact List.prefix_append _ _
  obtain ⟨fuel, st, hloop, hknows⟩ := scanLoop_first [] us (knows_start _) hfront hfirst
  obtain ⟨names, harr, hstacked⟩ := hknows.stacked hsplit htext haligned
  have hcut : st.strCut = html front := (hknows.strCut_text hfront).trans htext
  have hclosers := (closers_iff hstacked (doc.front_wellFormed hsplit)).mpr hcond
  refine ⟨fuel, st, front, back, hsplit, hloop, hcut, ?_⟩
  rw [cutText_long hlong hloop, closed_eq harr, hcut, hclosers]

theorem closable_of_completes (hlong : intLength < (stripTags (html doc.tokens)).length)
    (h : Completes stripTags intLength strLast doc) :
    Closable doc (intLength - strLast.length) ∨ Swallows doc (intLength - strLast.length) := by
  obtain ⟨fuel, st, front, back, hsplit, hloop, hcut, hresult⟩ := h
  have hclosers : closers st.arrTags.reverse = (openTags front).flatMap fun o => closeTag o.1 := by
    rw [cutText_long hlong hloop, closed_eq (List.reverse_reverse _).symm, hcut, Option.some.injEq, Prod.mk.injEq,
      List.append_cancel_right_eq, List.append_cancel_left_eq] at hresult
    exact hresult.1
  by_cases hend : st.i ≤ (html doc.tokens).length
  · obtain ⟨us, hfront, hknows, hfirst⟩ :=
      scanLoop_knows (knows_start _) rfl (fun vs hvs hne => absurd (List.prefix_nil.mp hvs) hne) hloop hend
    by_cases haligned : Aligned us
    · have htext : text us = html front := (hknows.strCut_text hfront).symm.trans hcut
      obtain ⟨names, harr, hstacked⟩ := hknows.stacked hsplit htext haligned
      rw [harr, List.reverse_reverse, closers_iff hstacked (doc.front_wellFormed hsplit)] at hclosers
      exact .inl ⟨front, back, us, hsplit, htext, hfirst, haligned, hclosers⟩
    · exact .inr ⟨us, hfront, hfirst, haligned⟩
  · -- behind the end everything has been taken, where nothing is open
    have hall : html front = html front ++ html back := by
      rw [← html_append, ← hsplit, ← hcut, strCut_scanLoop rfl hloop]
      exact List.take_of_length_le (Nat.le_of_not_le hend)
    have hback : back = [] := html_eq_nil (List.self_eq_append_right.mp hall)
    rw [hback, List.append_nil] at hsplit
    rw [← hsplit, doc.openTags_eq] at hclosers
    exact absurd hclosers (closers_ne_nil _)

end

/-- A document that is too long is cut with exactly its open elements closed if the scan
    stops inside an element, with no tag mistaken and every open one heard as it is. And
    only then, unless a higher byte takes a `<` or a `>` along on the way. -/
theorem cutHTML_completes (stripTags : Octets → Octets) (intLength : Int) (strLast : Octets) (doc : Document)
    (hlong : intLength < (stripTags (html doc.tokens)).length) :
    (Closable doc (intLength - strLast.length) → Completes stripTags intLength strLast doc) ∧
      (Completes stripTags intLength strLast doc →
        Closable doc (intLength - strLast.length) ∨ Swallows doc (intLength - strLast.length)) :=
  ⟨completes_of_closable hlong, closable_of_completes hlong⟩

/-- Two of the six letters of a paragraph are kept, and the paragraph is closed. -/
theorem cutHTML_completes_paragraph : ∃ doc : Document,
    html doc.tokens = [60, 112, 62, 97, 98, 99, 100, 101, 102, 60, 47, 112, 62] ∧
      Completes (fun _ => [97, 98, 99, 100, 101, 102]) 5 [46, 46, 46] doc := by
  have hname : IsName [112] := ⟨List.cons_ne_nil _ _, List.forall_mem_singleton.mpr (by decide)⟩
  have hvoid : isVoid [112] = false := by decide +kernel
  have hwf : ∀ t ∈ .opening [112] [] :: ([97, 98, 99, 100, 101, 102].map .byte ++ [.closing [112] []]),
      Token.WellFormed t := by
    rw [List.forall_mem_cons, List.forall_mem_append, List.forall_mem_singleton]
    exact ⟨⟨hname, hvoid, List.not_mem_nil, fun b hb => nomatch hb⟩, wellFormed_bytes (by decide),
      hname, fun b hb => absurd hb List.not_mem_nil⟩
  have hfirst : FirstToShow 2 [⟨60, [], rfl⟩, ⟨112, [], rfl⟩, ⟨62, [], rfl⟩, ⟨97, [], rfl⟩, ⟨98, [], rfl⟩] := by
    refine ⟨by decide, fun vs hvs hne => ?_⟩
    have hfew : ∀ k < 5, visible (List.take k [⟨60, [], rfl⟩, ⟨112, [], rfl⟩, ⟨62, [], rfl⟩, ⟨97, [], rfl⟩,
        ⟨98, [], rfl⟩]) < 2 := by decide
    have hlength : vs.length < 5 := Nat.lt_of_le_of_ne hvs.length_le fun he => hne (hvs.eq_of_length he)
    rw [List.prefix_iff_eq_take.mp hvs]
    exact hfew _ hlength
  refine ⟨⟨_, hwf, by decide⟩, rfl, (cutHTML_completes _ 5 _ _ (by decide)).1 ?_⟩
  refine ⟨[.opening [112] [], .byte 97, .byte 98], _, _, rfl, rfl, hfirst, ?_, ?_, ?_, ?_⟩
  · simp [Aligned, Piece.Aligned]
  · exact List.cons_ne_nil _ _
  · simp [Token.Regular]
  · simp [openTags, Token.after, startsPlain]

/-- Where no element is open, `</>` is put behind the text. -/
theorem cutHTML_closes_nothing :
    ¬∀ (stripTags : Octets → Octets) (intLength : Int) (strLast : Octets) (doc : Document),
      intLength < (stripTags (html doc.tokens)).length → Completes stripTags intLength strLast doc := by
  intro hall
  have hless : 60 ∉ html ([97, 98, 99, 100, 101, 102].map Token.byte) := by decide
  have hlong : (5 : Int) < (html ([97, 98, 99, 100, 101, 102].map Token.byte)).length := by decide
  obtain ⟨fuel, st, front, back, hsplit, -, -, hresult⟩ :=
    hall (fun s => s) 5 [46, 46, 46]
      ⟨[97, 98, 99, 100, 101, 102].map .byte, wellFormed_bytes (by decide), by decide⟩ hlong
  have hends : (cutText (fun s => s) 5 [46, 46, 46] 20 (html ([97, 98, 99, 100, 101, 102].map Token.byte))).any
      (fun o => o.1 = [97, 98, 60, 47, 62, 46, 46, 46]) = true := by decide +kernel
  obtain ⟨o, ho, htext⟩ := (Option.any_eq_true _ _).mp hends
  have hsame := Option.some.inj
    ((cutText_mono ho (Nat.le_max_left 20 fuel)).symm.trans (cutText_mono hresult (Nat.le_max_right 20 fuel)))
  have hnone : openTags front = [] := by
    refine List.eq_nil_iff_forall_not_mem.mpr fun tag htag => ?_
    have hmem := List.mem_append_left back (mem_openTags htag)
    rw [← hsplit] at hmem
    simp at hmem
  rw [hsame, hnone, List.flatMap_nil, List.append_nil, decide_eq_true_eq] at htext
  have hfront : html front = [97, 98, 60, 47, 62] := List.append_cancel_right htext
  have hmem : 60 ∈ html (front ++ back) := by
    rw [html_append, hfront]
    exact List.mem_append_left _ (by decide)
  rw [← hsplit] at hmem
  exact hless hmem

end RubbishStore.Util.CutHtml
