import RubbishStore.Lib.Shortest
import RubbishStore.Util.AutoComplete

/- How much text `autoCompleteUnclosedTag` keeps under a length. A piece that stays below
   the length goes in as it is; the one that reaches it is cut to one character more than
   there is room for, and the loop ends. So the text that is kept has the length asked for
   only if some piece ends exactly there (`kept_eq`, `truncates_iff`). -/
namespace RubbishStore.Util.AutoComplete
open RubbishStore.Lib RubbishStore.Lib.Shortest

/-- The pieces that are taken as text. -/
def texts (contents : List Octets) : List Octets := contents.filter fun tag => reading tag = .text

/-- How many characters are kept of pieces of so many characters each. -/
def keptLength {α : Type} (f : α → Nat) : Nat → List α → Nat
  | _, [] => 0
  | limit, a :: l => if f a < limit then f a + keptLength f (limit - f a) l else min (f a) (limit + 1)

section
variable (php : Php) (o : Options)

/-- What a piece adds to the result. -/
def added (σ : Completion) (tag : Octets) : Octets := (step php o σ tag).result.drop σ.result.length

/-- What a run adds to it of pieces that are taken as text. -/
def keptFrom (σ : Completion) (contents : List Octets) : Octets :=
  (steps php o σ contents).flatMap fun x => if reading x.2 = .text then added php o x.1 x.2 else []

def kept (html : Octets) : Octets := keptFrom php o start (contents html)

/-- The characters of the text pieces, one behind the other. -/
def textCharacters (html : Octets) : List Octets := (texts (contents html)).flatMap php.characters

/-- What is kept are so many characters of the text, or all of it. -/
def Truncates (limit : Nat) (html : Octets) : Prop :=
  kept php o html =
    ((textCharacters php html).take (min limit (textCharacters php html).length)).flatten

end

section
variable {php : Php} {o : Options} {σ : Completion} {tag : Octets}

/-- A step only adds to the result. -/
theorem result_step (σ : Completion) (tag : Octets) :
    (step php o σ tag).result = σ.result ++ added php o σ tag := by
  have hfront : σ.result <+: (step php o σ tag).result := by
    have hnear : σ.result <+: (closeNear php o σ).result := by
      rw [closeNear]
      split
      · exact List.prefix_append _ _
      · exact List.prefix_refl _
    rw [step]
    split
    · exact List.prefix_append _ _
    · exact List.prefix_append _ _
    · exact hnear.trans (List.prefix_append _ _)
    · rw [endTag]
      split
      · exact List.prefix_append _ _
      · exact List.prefix_refl _
    · exact List.prefix_append _ _
    · exact List.prefix_append _ _
  rw [added]
  exact List.prefix_append_drop hfront

/-- The result of a run is what its pieces add. -/
theorem result_loop (σ : Completion) (contents : List Octets) :
    (loop php o σ contents).result =
      σ.result ++ (steps php o σ contents).flatMap fun x => added php o x.1 x.2 := by
  induction contents generalizing σ with
  | nil => simp [loop, steps]
  | cons tag contents ih =>
    rw [loop, steps, List.flatMap_cons]
    split
    · rw [List.flatMap_nil, List.append_nil, result_step]
    · rw [ih, result_step, List.append_assoc]

theorem added_text (h : reading tag = .text) : added php o σ tag = cutText php o σ tag := by
  rw [added, step, h]
  exact List.drop_left

theorem len_text (h : reading tag = .text) (hfits : fits php o σ tag = true) :
    (step php o σ tag).len = σ.len + mbStrlen php tag := by
  rw [step, h]
  exact if_pos hfits

/-- Only text is counted. -/
theorem len_other (h : reading tag ≠ .text) : (step php o σ tag).len = σ.len := by
  have hnear : (closeNear php o σ).len = σ.len := by
    rw [closeNear]
    split <;> rfl
  rw [step]
  split
  · rfl
  · rfl
  · exact hnear
  · rw [endTag]
    split <;> rfl
  · rfl
  · next htext => exact absurd htext h

theorem breaks_other (h : reading tag ≠ .text) : breaks php o σ tag = false := by
  rw [breaks]
  split
  · next htext => exact absurd htext h
  · rfl

theorem breaks_text (h : reading tag = .text) : breaks php o σ tag = !fits php o σ tag := by
  rw [breaks, h]

theorem fits_iff {limit : Nat} (ho : o.length = some (limit : Int)) :
    fits php o σ tag = true ↔ σ.len + mbStrlen php tag < limit := by
  rw [fits, ho]
  simp only [decide_eq_true_eq]
  omega

/-- What goes in of a piece that does not fit. -/
theorem cutText_long {limit : Nat} (ho : o.length = some (limit : Int)) (hlen : σ.len ≤ limit)
    (h : ¬ fits php o σ tag = true) :
    cutText php o σ tag = ((php.characters tag).take (limit - σ.len + 1)).flatten := by
  have hroom : ((limit : Int) - σ.len + 1) = ((limit - σ.len + 1 : Nat) : Int) := by omega
  rw [cutText, if_neg h, ho, Option.getD_some, hroom, mbSubstr, if_pos (Int.natCast_nonneg _),
    Int.toNat_natCast]

theorem keptFrom_stop (hbreak : breaks php o σ tag = true) (h : reading tag = .text) (contents : List Octets) :
    keptFrom php o σ (tag :: contents) = cutText php o σ tag := by
  rw [keptFrom, steps, if_pos hbreak, List.flatMap_cons, List.flatMap_nil, List.append_nil, if_pos h,
    added_text h]

theorem keptFrom_go (hbreak : breaks php o σ tag = false) (contents : List Octets) :
    keptFrom php o σ (tag :: contents) =
      (if reading tag = .text then added php o σ tag else []) ++
        keptFrom php o (step php o σ tag) contents := by
  rw [keptFrom, steps, hbreak, List.flatMap_cons]
  rfl

end

section
variable {php : Php} {o : Options}

/-- What a run keeps, from any state that has not exceeded the length. -/
theorem keptFrom_eq {limit : Nat} (ho : o.length = some (limit : Int)) (contents : List Octets)
    {σ : Completion} (hlen : σ.len ≤ limit) :
    keptFrom php o σ contents =
      (((texts contents).flatMap php.characters).take
        (keptLength (mbStrlen php) (limit - σ.len) (texts contents))).flatten := by
  induction contents generalizing σ with
  | nil => rfl
  | cons tag contents ih =>
    by_cases htext : reading tag = .text
    · have htexts : texts (tag :: contents) = tag :: texts contents :=
        List.filter_cons_of_pos (by simpa using htext)
      have hcut : fits php o σ tag = true ↔ σ.len + mbStrlen php tag < limit := fits_iff ho
      rw [htexts, List.flatMap_cons, keptLength]
      by_cases hfits : fits php o σ tag = true
      · have hroom := hcut.mp hfits
        have hnext := len_text htext hfits
        have hbreak : breaks php o σ tag = false := by rw [breaks_text htext, hfits]; rfl
        have hrest : limit - (step php o σ tag).len = limit - σ.len - mbStrlen php tag := by omega
        rw [keptFrom_go hbreak, if_pos htext, added_text htext, cutText, if_pos hfits,
          ih (by omega), hrest, if_pos (by omega), mbStrlen, List.take_length_add_append,
          List.flatten_append, php.flatten_characters]
      · have hbreak : breaks php o σ tag = true := by
          rw [breaks_text htext, Bool.eq_false_iff.mpr hfits]
          rfl
        have hroom : ¬ mbStrlen php tag < limit - σ.len := fun h => hfits (hcut.mpr (by omega))
        have hmin : min (mbStrlen php tag) (limit - σ.len + 1) ≤ (php.characters tag).length :=
          Nat.min_le_left _ _
        rw [keptFrom_stop hbreak htext, cutText_long ho hlen hfits, if_neg hroom,
          List.take_append_of_le_length hmin, mbStrlen, Nat.min_comm, List.take_eq_take_min]
    · have htexts : texts (tag :: contents) = texts contents :=
        List.filter_cons_of_neg (by simpa using htext)
      have hnext : (step php o σ tag).len = σ.len := len_other htext
      rw [keptFrom_go (breaks_other htext), if_neg htext, List.nil_append, htexts, ih (by omega), hnext]

end

/-- A beginning that is not empty has the first piece in it. -/
theorem exists_front_cons {α : Type} {f : α → Nat} {a : α} {l : List α} {limit : Nat} :
    (∃ front, front ≠ [] ∧ front <+: a :: l ∧ weight f front = limit) ↔
      ∃ front, front <+: l ∧ f a + weight f front = limit := by
  constructor
  · intro h
    obtain ⟨front, hne, hfront, hweight⟩ := h
    obtain ⟨b, front, rfl⟩ := List.exists_cons_of_ne_nil hne
    obtain ⟨rfl, hrest⟩ := List.cons_prefix_cons.mp hfront
    exact ⟨front, hrest, hweight⟩
  · intro h
    obtain ⟨front, hfront, hweight⟩ := h
    exact ⟨a :: front, List.cons_ne_nil a front, List.cons_prefix_cons.mpr ⟨rfl, hfront⟩, hweight⟩

/-- The length asked for is met if there is no more text, or if a piece ends exactly there. -/
theorem keptLength_eq_min_iff {α : Type} (f : α → Nat) (limit : Nat) (l : List α) :
    keptLength f limit l = min limit (weight f l) ↔
      weight f l ≤ limit ∨ ∃ front, front ≠ [] ∧ front <+: l ∧ weight f front = limit := by
  induction l generalizing limit with
  | nil => simp [keptLength]
  | cons a l ih =>
    rw [exists_front_cons, keptLength, weight_cons]
    split
    · next hlt =>
      -- the piece goes in whole, and the rest has the room that is left
      have hrest := ih (limit - f a)
      have hmin : min limit (f a + weight f l) = f a + min (limit - f a) (weight f l) := by omega
      have hsame : (∃ front, front <+: l ∧ f a + weight f front = limit) ↔
          ∃ front, front ≠ [] ∧ front <+: l ∧ weight f front = limit - f a := by
        constructor
        · intro h
          obtain ⟨front, hfront, hweight⟩ := h
          refine ⟨front, ?_, hfront, by omega⟩
          intro hnil
          rw [hnil, weight_nil] at hweight
          omega
        · intro h
          obtain ⟨front, -, hfront, hweight⟩ := h
          exact ⟨front, hfront, by omega⟩
      rw [hmin, Nat.add_left_cancel_iff, hrest, hsame]
      exact or_congr_left (by omega)
    · next hge =>
      constructor
      · intro h
        exact .inr ⟨[], List.nil_prefix, by rw [weight_nil]; omega⟩
      · intro h
        have hle : f a ≤ limit := by
          obtain hle | ⟨front, -, hweight⟩ := h
          · omega
          · omega
        omega

/-- Different numbers of characters are different texts. -/
theorem flatten_take_inj {cs : List Octets} (h : [] ∉ cs) {m n : Nat} (hm : m ≤ cs.length)
    (hn : n ≤ cs.length) (heq : (cs.take m).flatten = (cs.take n).flatten) : m = n := by
  induction cs generalizing m n with
  | nil =>
    rw [List.length_nil] at hm hn
    omega
  | cons c cs ih =>
    obtain ⟨hc, hcs⟩ := not_or.mp (mt List.mem_cons.mpr h)
    cases m with
    | zero =>
      cases n with
      | zero => rfl
      | succ n =>
        rw [List.take_succ_cons, List.flatten_cons] at heq
        exact absurd (List.append_eq_nil_iff.mp heq.symm).1.symm hc
    | succ m =>
      cases n with
      | zero =>
        rw [List.take_succ_cons, List.flatten_cons] at heq
        exact absurd (List.append_eq_nil_iff.mp heq).1.symm hc
      | succ n =>
        rw [List.take_succ_cons, List.take_succ_cons, List.flatten_cons, List.flatten_cons] at heq
        rw [ih hcs (Nat.le_of_succ_le_succ hm) (Nat.le_of_succ_le_succ hn) (List.append_cancel_left heq)]

theorem keptLength_le {α : Type} (f : α → Nat) (limit : Nat) (l : List α) :
    keptLength f limit l ≤ weight f l := by
  induction l generalizing limit with
  | nil => exact Nat.le_refl 0
  | cons a l ih =>
    rw [keptLength, weight_cons]
    split
    · exact Nat.add_le_add_left (ih _) _
    · exact Nat.le_trans (Nat.min_le_left _ _) (Nat.le_add_right _ _)

theorem length_characters (php : Php) (l : List Octets) :
    (l.flatMap php.characters).length = weight (mbStrlen php) l := by
  induction l with
  | nil => rfl
  | cons tag l ih => rw [List.flatMap_cons, List.length_append, ih, weight_cons, mbStrlen]

/-- What is kept of an input. -/
theorem kept_eq (php : Php) {o : Options} {limit : Nat} (ho : o.length = some (limit : Int)) (html : Octets) :
    kept php o html =
      ((textCharacters php html).take
        (keptLength (mbStrlen php) limit (texts (contents html)))).flatten :=
  keptFrom_eq ho (contents html) (Nat.zero_le limit)

/-- **The text is cut to the length just when it is not longer, or when a piece ends there**:
    a cut inside a piece keeps one character too many. -/
theorem truncates_iff (php : Php) (hphp : ∀ s, [] ∉ php.characters s) (o : Options) (limit : Nat)
    (ho : o.length = some (limit : Int)) (html : Octets) :
    Truncates php o limit html ↔
      (textCharacters php html).length ≤ limit ∨
        ∃ front, front ≠ [] ∧ front <+: texts (contents html) ∧
          (front.flatMap php.characters).length = limit := by
  have hlength := length_characters php (texts (contents html))
  have hne : [] ∉ textCharacters php html := by
    intro hmem
    obtain ⟨tag, -, htag⟩ := List.mem_flatMap.mp hmem
    exact hphp tag htag
  have hkept : Truncates php o limit html ↔
      keptLength (mbStrlen php) limit (texts (contents html)) =
        min limit (weight (mbStrlen php) (texts (contents html))) := by
    rw [Truncates, kept_eq php ho, textCharacters, hlength]
    constructor
    · apply flatten_take_inj hne
      · exact Nat.le_trans (keptLength_le _ _ _) (Nat.le_of_eq hlength.symm)
      · exact Nat.le_trans (Nat.min_le_right _ _) (Nat.le_of_eq hlength.symm)
    · intro h
      rw [h]
  rw [hkept, keptLength_eq_min_iff, textCharacters, hlength]
  simp only [length_characters]

theorem not_nil_mem_singleByte (s : Octets) : [] ∉ singleByte.characters s := by
  intro h
  obtain ⟨b, -, hb⟩ := List.mem_map.mp h
  exact List.cons_ne_nil b [] hb

theorem truncates_iff_bold :
    Truncates singleByte { length := some 3 } 3 (octets "abc<b>de</b>") ↔
      (textCharacters singleByte (octets "abc<b>de</b>")).length ≤ 3 ∨
        ∃ front, front ≠ [] ∧ front <+: texts (contents (octets "abc<b>de</b>")) ∧
          (front.flatMap singleByte.characters).length = 3 :=
  truncates_iff singleByte not_nil_mem_singleByte { length := some 3 } 3 rfl _

theorem kept_one_more :
    kept singleByte { length := some 2 } (octets "abcd") = octets "abc" ∧
      ¬ ∀ (php : Php) (o : Options) (limit : Nat), (∀ s, [] ∉ php.characters s) →
        o.length = some (limit : Int) → ∀ html, Truncates php o limit html := by
  have hkept : kept singleByte { length := some 2 } (octets "abcd") = octets "abc" := by
    decide +kernel
  refine ⟨hkept, fun h => ?_⟩
  have hcut := h singleByte { length := some 2 } 2 not_nil_mem_singleByte rfl (octets "abcd")
  rw [Truncates, hkept] at hcut
  exact absurd hcut (by decide +kernel)

end RubbishStore.Util.AutoComplete
