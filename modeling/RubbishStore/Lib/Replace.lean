import RubbishStore.Lib.Text
import Mathlib.Data.List.Perm.Subperm
import Mathlib.Data.List.Nodup

/- Replacing the matches of a pattern in a text: from left to right, each search
   going on behind the match before it. A pattern is given by the length of its
   match at the front of a text, so it looks ahead only. A word that stands for a
   separator can be put in and taken out again exactly when the text does not hold
   the word already (`unmark_mark`). -/
namespace RubbishStore.Lib.Replace

variable {α : Type}

/-- Every match replaced by `rep`. The first argument counts the elements that
    belong to the match before. No pattern here matches the empty text. -/
def substitute (pattern : List α → Option Nat) (rep : List α) : Nat → List α → List α
  | _, [] => []
  | skip + 1, _ :: s => substitute pattern rep skip s
  | 0, a :: s =>
    match pattern (a :: s) with
    | some (length + 1) => rep ++ substitute pattern rep length s
    | _ => a :: substitute pattern rep 0 s

/-- A word, up to what `fold` takes as equal. -/
def startsWith [DecidableEq α] (fold : α → α) (word s : List α) : Bool :=
  (s.take word.length).map fold = word.map fold

def ofWord [DecidableEq α] (fold : α → α) (word s : List α) : Option Nat :=
  if startsWith fold word s then some word.length else none

variable {pattern : List α → Option Nat} {rep : List α}

@[simp]
theorem substitute_nil (skip : Nat) : substitute pattern rep skip [] = [] := by
  cases skip <;> rfl

theorem substitute_skip (p s : List α) :
    substitute pattern rep p.length (p ++ s) = substitute pattern rep 0 s := by
  induction p with
  | nil => rfl
  | cons a p ih => exact ih

theorem substitute_match {p : List α} (hp : p ≠ []) {s : List α}
    (h : pattern (p ++ s) = some p.length) :
    substitute pattern rep 0 (p ++ s) = rep ++ substitute pattern rep 0 s := by
  cases p with
  | nil => exact absurd rfl hp
  | cons a p =>
    rw [List.cons_append] at h ⊢
    rw [substitute, h]
    exact congrArg (rep ++ ·) (substitute_skip p s)

theorem substitute_none {a : α} {s : List α} (h : pattern (a :: s) = none) :
    substitute pattern rep 0 (a :: s) = a :: substitute pattern rep 0 s := by
  rw [substitute, h]

/-- Replacements that look like what they replace leave the look of the text. -/
theorem map_substitute_eq {β : Type} {f : α → β}
    (h : ∀ t length, pattern t = some (length + 1) → (t.take (length + 1)).map f = rep.map f)
    (skip : Nat) (s : List α) : (substitute pattern rep skip s).map f = (s.drop skip).map f := by
  induction s generalizing skip with
  | nil => rw [substitute_nil, List.drop_nil]
  | cons a s ih =>
    cases skip with
    | succ skip => exact ih skip
    | zero =>
      rw [substitute]
      split
      · next length hlength =>
        rw [List.map_append, ih, ← h _ _ hlength, ← List.map_append, List.take_succ_cons,
          List.cons_append, List.take_append_drop, List.drop_zero]
      · rw [List.map_cons, ih, List.drop_zero, List.drop_zero, List.map_cons]

section word
variable [DecidableEq α] {fold : α → α}

theorem startsWith_append {word p : List α} (h : p.map fold = word.map fold) (s : List α) :
    startsWith fold word (p ++ s) = true := by
  have hlength : p.length = word.length := by simpa using congrArg List.length h
  rw [startsWith, ← hlength, List.take_left]
  exact decide_eq_true h

theorem startsWith_iff {word s : List α} :
    startsWith fold word s = true ↔ ∃ p, p.map fold = word.map fold ∧ p <+: s := by
  refine ⟨fun h => ?_, fun h => ?_⟩
  · exact ⟨s.take word.length, of_decide_eq_true h, List.take_prefix _ s⟩
  · obtain ⟨p, hp, t, rfl⟩ := h
    exact startsWith_append hp t

theorem startsWith_cons_iff {a b : α} {u s : List α} :
    startsWith fold (b :: u) (a :: s) = true ↔ fold a = fold b ∧ startsWith fold u s = true := by
  simp only [startsWith, List.length_cons, List.take_succ_cons, List.map_cons, List.cons.injEq,
    decide_eq_true_eq]

/-- A word does not start in front of a text where it has none of the elements. -/
theorem suffix_of_startsWith {u : List α} (hne : u ≠ []) {v s t : List α}
    (hv : ∀ b ∈ u, fold b ∉ v.map fold) (ht : t <:+ v ++ s) (hstart : startsWith fold u t = true) :
    t <:+ s := by
  induction v with
  | nil => exact ht
  | cons c v ih =>
    rcases List.suffix_cons_iff.mp ht with rfl | ht
    · cases u with
      | nil => exact absurd rfl hne
      | cons b u =>
        refine absurd ?_ (hv b List.mem_cons_self)
        rw [List.map_cons, (startsWith_cons_iff.mp hstart).1]
        exact List.mem_cons_self
    · refine ih (fun b hb hmem => hv b hb ?_) ht
      rw [List.map_cons]
      exact List.mem_cons_of_mem _ hmem

/-- One element, itself only. -/
theorem substitute_single {sep : α} (hsep : ∀ a, fold a = fold sep → a = sep) (s : List α) :
    substitute (ofWord fold [sep]) rep 0 s = s.flatMap fun a => if a = sep then rep else [a] := by
  induction s with
  | nil => rfl
  | cons a s ih =>
    rw [List.flatMap_cons, ← ih]
    by_cases ha : a = sep
    · subst ha
      have hmatch : ofWord fold [a] ([a] ++ s) = some [a].length := by
        rw [ofWord, if_pos (startsWith_append rfl s)]
      simpa using substitute_match (List.cons_ne_nil a []) hmatch
    · have hnone : ofWord fold [sep] (a :: s) = none := by
        rw [ofWord, if_neg]
        simp only [startsWith, decide_eq_true_eq]
        simpa using fun h => ha (hsep a h)
      rw [substitute_none hnone, if_neg ha, List.singleton_append]

/-- A word is replaced from the front: it stands here, or the first element is left. -/
theorem substitute_word_induction {word : List α} (hword : word ≠ []) {motive : List α → List α → Prop}
    (nil : motive [] []) (hit : ∀ t r, motive t r → motive (word ++ t) (rep ++ r))
    (miss : ∀ a t r, ¬word <+: a :: t → motive t r → motive (a :: t) (a :: r)) (s : List α) :
    motive s (substitute (ofWord id word) rep 0 s) := by
  have hstarts : ∀ s, startsWith id word s = true ↔ word <+: s := by
    intro s
    rw [startsWith_iff]
    simp only [List.map_id, exists_eq_left]
  obtain ⟨n, hn⟩ : ∃ n, s.length ≤ n := ⟨_, Nat.le_refl _⟩
  induction n generalizing s with
  | zero =>
    rw [List.length_eq_zero_iff.mp (Nat.le_zero.mp hn), substitute_nil]
    exact nil
  | succ n ih =>
    by_cases hhit : word <+: s
    · obtain ⟨t, rfl⟩ := hhit
      have hmatch : ofWord id word (word ++ t) = some word.length :=
        if_pos ((hstarts _).mpr (List.prefix_append word t))
      have hpos := List.length_pos_iff.mpr hword
      rw [List.length_append] at hn
      rw [substitute_match hword hmatch]
      exact hit t _ (ih t (by omega))
    · cases s with
      | nil =>
        rw [substitute_nil]
        exact nil
      | cons a t =>
        have hnone : ofWord id word (a :: t) = none := if_neg (mt (hstarts _).mp hhit)
        rw [substitute_none hnone]
        exact miss a t _ hhit (ih t (Nat.le_of_succ_le_succ hn))

/-- A shorter text in the place of a word makes a text shorter where the word stands. -/
theorem length_substitute_word {word : List α} (hrep : rep.length < word.length) (s : List α) :
    (substitute (ofWord id word) rep 0 s).length ≤ s.length ∧
      (word <:+: s → (substitute (ofWord id word) rep 0 s).length < s.length) := by
  have hword : word ≠ [] := List.length_pos_iff.mp (Nat.zero_lt_of_lt hrep)
  refine @substitute_word_induction _ rep _ _ hword
    (fun s r => r.length ≤ s.length ∧ (word <:+: s → r.length < s.length)) ?_ ?_ ?_ s
  · exact ⟨Nat.le_refl _, fun hinfix => absurd (List.infix_nil.mp hinfix) hword⟩
  · intro t r ih
    rw [List.length_append, List.length_append]
    exact ⟨by omega, fun _ => by omega⟩
  · intro a t r hmiss ih
    rw [List.length_cons, List.length_cons]
    refine ⟨Nat.succ_le_succ ih.1, fun hinfix => ?_⟩
    rcases List.infix_cons_iff.mp hinfix with hfront | hinfix
    · exact absurd hfront hmiss
    · exact Nat.succ_lt_succ (ih.2 hinfix)

theorem substitute_word_eq_self {word : List α} (hword : word ≠ []) {s : List α} (h : ¬word <:+: s) :
    substitute (ofWord id word) rep 0 s = s := by
  have hself : ¬word <:+: s → substitute (ofWord id word) rep 0 s = s := by
    refine @substitute_word_induction _ rep _ _ hword (fun s r => ¬word <:+: s → r = s) (fun _ => rfl) ?_ ?_ s
    · intro t r ih hnot
      exact absurd (List.prefix_append word t).isInfix hnot
    · intro a t r hmiss ih hnot
      rw [ih fun hinfix => hnot (List.infix_cons_iff.mpr (.inr hinfix))]
  exact hself h

/-- What is left comes from the text or from what is put in. -/
theorem mem_substitute_word {word : List α} (hword : word ≠ []) {s : List α} {a : α}
    (h : a ∈ substitute (ofWord id word) rep 0 s) : a ∈ rep ∨ a ∈ s := by
  have hmem : ∀ a ∈ substitute (ofWord id word) rep 0 s, a ∈ rep ∨ a ∈ s := by
    refine @substitute_word_induction _ rep _ _ hword (fun s r => ∀ a ∈ r, a ∈ rep ∨ a ∈ s)
      (fun a ha => .inr ha) ?_ ?_ s
    · intro t r ih a ha
      rcases List.mem_append.mp ha with ha | ha
      · exact .inl ha
      · exact (ih a ha).imp_right (List.mem_append_right word)
    · intro b t r hmiss ih a ha
      rcases List.mem_cons.mp ha with ha | ha
      · exact .inr (List.mem_cons.mpr (.inl ha))
      · exact (ih a ha).imp_right (List.mem_cons_of_mem b)
  exact hmem a h

/-- One element that is taken out is gone. -/
theorem not_mem_substitute_single {a : α} (hrep : a ∉ rep) (s : List α) :
    a ∉ substitute (ofWord id [a]) rep 0 s := by
  have hsingle : ∀ b, id b = id a → b = a := fun b hb => hb
  rw [substitute_single hsingle, List.mem_flatMap]
  intro hmem
  obtain ⟨b, -, hb⟩ := hmem
  split at hb
  · exact hrep hb
  · next hne => exact hne (List.mem_singleton.mp hb).symm

end word

/-! A word in the place of a separator. -/

section mark
variable [DecidableEq α] (fold : α → α) (sep head : α) (tail : List α)

/-- The separator replaced by the word. -/
def mark (s : List α) : List α := substitute (ofWord fold [sep]) (head :: tail) 0 s

/-- And the word by the separator. -/
def unmark (s : List α) : List α := substitute (ofWord fold (head :: tail)) [sep] 0 s

/-- The word stands somewhere in the text. -/
def Holds (s : List α) : Prop := ∃ p, p.map fold = (head :: tail).map fold ∧ p <:+: s

variable {fold sep head tail}

theorem unmark_word (s : List α) :
    unmark fold sep head tail ((head :: tail) ++ s) = sep :: unmark fold sep head tail s := by
  apply substitute_match (List.cons_ne_nil head tail)
  rw [ofWord, if_pos (startsWith_append rfl s)]

theorem unmark_other {a : α} {s : List α} (h : startsWith fold (head :: tail) (a :: s) = false) :
    unmark fold sep head tail (a :: s) = a :: unmark fold sep head tail s := by
  apply substitute_none
  rw [ofWord, h]
  rfl

theorem holds_cons_iff {a : α} {s : List α} : Holds fold head tail (a :: s) ↔
    startsWith fold (head :: tail) (a :: s) = true ∨ Holds fold head tail s := by
  rw [startsWith_iff, Holds, Holds]
  simp only [List.infix_cons_iff, and_or_left, exists_or]

/-- A word at the front comes out. -/
theorem unmark_of_startsWith {s : List α} (h : startsWith fold (head :: tail) s = true) :
    ∃ t, unmark fold sep head tail s = sep :: t := by
  obtain ⟨p, hp, t, rfl⟩ := startsWith_iff.mp h
  have hlength : p.length = (head :: tail).length := by simpa using congrArg List.length hp
  have hne : p ≠ [] := List.length_pos_iff.mp (by rw [hlength]; exact Nat.succ_pos _)
  have hmatch : ofWord fold (head :: tail) (p ++ t) = some p.length := by
    rw [ofWord, if_pos h, hlength]
  exact ⟨_, substitute_match hne hmatch⟩

variable (hsep : ∀ a, fold a = fold sep → a = sep) (hword : fold sep ∉ (head :: tail).map fold)
  (hhead : fold head ∉ tail.map fold)
include hsep

theorem mark_sep (s : List α) :
    mark fold sep head tail (sep :: s) = (head :: tail) ++ mark fold sep head tail s := by
  simp only [mark, substitute_single hsep, List.flatMap_cons, if_pos]

theorem mark_other {a : α} (ha : a ≠ sep) (s : List α) :
    mark fold sep head tail (a :: s) = a :: mark fold sep head tail s := by
  simp only [mark, substitute_single hsep, List.flatMap_cons, if_neg ha, List.singleton_append]

/-- A word without the head at the front of the marked text was there before: what
    is put in starts with the head. -/
theorem startsWith_of_mark {u : List α} (hu : fold head ∉ u.map fold) (s : List α)
    (h : startsWith fold u (mark fold sep head tail s) = true) : startsWith fold u s = true := by
  induction u generalizing s with
  | nil => rfl
  | cons b u ih =>
    simp only [List.map_cons, List.mem_cons, not_or] at hu
    cases s with
    | nil => exact h
    | cons a s =>
      by_cases ha : a = sep
      · rw [ha, mark_sep hsep] at h
        exact absurd (startsWith_cons_iff.mp h).1 hu.1
      · rw [mark_other hsep ha] at h
        obtain ⟨hab, hrest⟩ := startsWith_cons_iff.mp h
        exact startsWith_cons_iff.mpr ⟨hab, ih hu.2 s hrest⟩

/-- A word at the front of the text holds no separator, so it stays. -/
theorem startsWith_mark {u : List α} (hu : fold sep ∉ u.map fold) (s : List α)
    (h : startsWith fold u s = true) : startsWith fold u (mark fold sep head tail s) = true := by
  induction u generalizing s with
  | nil => rfl
  | cons b u ih =>
    simp only [List.map_cons, List.mem_cons, not_or] at hu
    cases s with
    | nil => exact h
    | cons a s =>
      obtain ⟨hab, hrest⟩ := startsWith_cons_iff.mp h
      have ha : a ≠ sep := fun ha => hu.1 (ha ▸ hab)
      rw [mark_other hsep ha]
      exact startsWith_cons_iff.mpr ⟨hab, ih hu.2 s hrest⟩

/-- A word that shares nothing with the separator and its replacement stands in the
    marked text where it stood before. -/
theorem startsWith_suffix_mark {u : List α} (hne : u ≠ []) (hu : fold sep ∉ u.map fold)
    (hnew : ∀ b ∈ u, fold b ∉ (head :: tail).map fold) (s : List α) :
    (∃ t, t <:+ mark fold sep head tail s ∧ startsWith fold u t = true) ↔
      ∃ t, t <:+ s ∧ startsWith fold u t = true := by
  have hhead : fold head ∉ u.map fold := by
    intro hmem
    obtain ⟨b, hb, hfold⟩ := List.mem_map.mp hmem
    exact hnew b hb (by rw [hfold, List.map_cons]; exact List.mem_cons_self)
  refine ⟨fun h => ?_, fun h => ?_⟩
  · obtain ⟨t, ht, hstart⟩ := h
    induction s with
    | nil => exact ⟨t, ht, hstart⟩
    | cons a s ih =>
      have hrest : t <:+ mark fold sep head tail s → ∃ t, t <:+ a :: s ∧ startsWith fold u t = true := by
        intro ht
        obtain ⟨v, hv, hvstart⟩ := ih ht
        exact ⟨v, hv.trans (List.suffix_cons a s), hvstart⟩
      by_cases ha : a = sep
      · rw [ha, mark_sep hsep] at ht
        exact hrest (suffix_of_startsWith hne hnew ht hstart)
      · rw [mark_other hsep ha] at ht
        rcases List.suffix_cons_iff.mp ht with rfl | ht
        · rw [← mark_other hsep ha] at hstart
          exact ⟨a :: s, List.suffix_rfl, startsWith_of_mark hsep hhead (a :: s) hstart⟩
        · exact hrest ht
  · obtain ⟨t, ⟨p, rfl⟩, hstart⟩ := h
    refine ⟨mark fold sep head tail t, ?_, startsWith_mark hsep hu t hstart⟩
    simp only [mark, substitute_single hsep, List.flatMap_append]
    exact List.suffix_append _ _

include hword hhead

/-- Taking the words out again gives the text back exactly when it held none. -/
theorem unmark_mark (s : List α) :
    unmark fold sep head tail (mark fold sep head tail s) = s ↔ ¬ Holds fold head tail s := by
  induction s with
  | nil =>
    refine ⟨fun _ => ?_, fun _ => rfl⟩
    rintro ⟨p, hp, hs⟩
    rw [List.infix_nil.mp hs] at hp
    simp at hp
  | cons a s ih =>
    rw [holds_cons_iff, not_or, Bool.not_eq_true]
    by_cases ha : a = sep
    · have hstart : startsWith fold (head :: tail) (a :: s) = false := by
        rw [← Bool.not_eq_true, startsWith_cons_iff, ha]
        exact fun h => hword (h.1 ▸ List.mem_cons_self)
      rw [ha, mark_sep hsep, unmark_word, List.cons_inj_right, ih, ← ha, hstart]
      simp
    · rw [mark_other hsep ha]
      cases hmark : startsWith fold (head :: tail) (a :: mark fold sep head tail s) with
      | false =>
        have hstart : startsWith fold (head :: tail) (a :: s) = false := by
          rw [← Bool.not_eq_true] at hmark ⊢
          intro h
          apply hmark
          rw [← mark_other hsep ha]
          exact startsWith_mark hsep hword (a :: s) h
        rw [unmark_other hmark, List.cons_inj_right, ih, hstart]
        simp
      | true =>
        -- the word comes out, although no separator was there
        obtain ⟨t, ht⟩ := @unmark_of_startsWith _ _ fold sep head tail _ hmark
        obtain ⟨hfirst, htail⟩ := startsWith_cons_iff.mp hmark
        have hstart : startsWith fold (head :: tail) (a :: s) = true :=
          startsWith_cons_iff.mpr ⟨hfirst, startsWith_of_mark hsep hhead s htail⟩
        rw [ht, hstart]
        simp [Ne.symm ha]

end mark

/-! Deletions: what is left, and what stood together before. -/

section delete
variable {β : Type}

def delete (pattern : List α → Option Nat) (s : List α) : List α := substitute pattern [] 0 s

/-- The pattern takes something at the front of the text. -/
def Hit (pattern : List α → Option Nat) (s : List α) : Prop := ∃ length, pattern s = some (length + 1)

theorem substitute_hit {a : α} {s : List α} {length : Nat} (h : pattern (a :: s) = some (length + 1)) :
    substitute pattern rep 0 (a :: s) = rep ++ substitute pattern rep length s := by
  rw [substitute, h]

theorem substitute_miss {a : α} {s : List α} (h : ¬ Hit pattern (a :: s)) :
    substitute pattern rep 0 (a :: s) = a :: substitute pattern rep 0 s := by
  rw [substitute]
  split
  · next length hlength => exact absurd ⟨length, hlength⟩ h
  · rfl

theorem substitute_map (f : β → α) (rep : List β) (skip : Nat) (s : List β) :
    (substitute (fun t => pattern (t.map f)) rep skip s).map f =
      substitute pattern (rep.map f) skip (s.map f) := by
  induction s generalizing skip with
  | nil => rw [substitute_nil, List.map_nil, substitute_nil]
  | cons b s ih =>
    cases skip with
    | succ skip => exact ih skip
    | zero =>
      by_cases hhit : Hit pattern ((b :: s).map f)
      · obtain ⟨length, hlength⟩ := hhit
        have hfront : pattern (f b :: s.map f) = some (length + 1) := hlength
        rw [List.map_cons, substitute_hit hfront, ← ih, ← List.map_append]
        exact congrArg (List.map f) (@substitute_hit _ (fun t => pattern (t.map f)) rep _ _ _ hlength)
      · have hfront : ¬ Hit pattern (f b :: s.map f) := hhit
        rw [List.map_cons, substitute_miss hfront, ← ih, ← List.map_cons]
        exact congrArg (List.map f) (@substitute_miss _ (fun t => pattern (t.map f)) rep _ _ hhit)

theorem substitute_sublist (skip : Nat) (s : List α) : (substitute pattern [] skip s).Sublist s := by
  induction s generalizing skip with
  | nil => rw [substitute_nil]
  | cons a s ih =>
    cases skip with
    | succ skip => exact (ih skip).cons a
    | zero =>
      by_cases hhit : Hit pattern (a :: s)
      · obtain ⟨length, hlength⟩ := hhit
        rw [substitute_hit hlength]
        exact (ih length).cons a
      · rw [substitute_miss hhit]
        exact (ih 0).cons_cons a

theorem delete_sublist (s : List α) : (delete pattern s).Sublist s := substitute_sublist 0 s

/-- What is left was passed over by the search. -/
theorem miss_of_mem_substitute {skip : Nat} {s : List α} {a : α} (h : a ∈ substitute pattern [] skip s) :
    ∃ p t, s = p ++ a :: t ∧ ¬ Hit pattern (a :: t) := by
  induction s generalizing skip with
  | nil => simp at h
  | cons b s ih =>
    have hbehind : ∀ skip, a ∈ substitute pattern [] skip s →
        ∃ p t, b :: s = p ++ a :: t ∧ ¬ Hit pattern (a :: t) := by
      intro skip hskip
      obtain ⟨p, t, hsplit, hmiss⟩ := ih hskip
      exact ⟨b :: p, t, by rw [hsplit, List.cons_append], hmiss⟩
    cases skip with
    | succ skip => exact hbehind skip h
    | zero =>
      by_cases hhit : Hit pattern (b :: s)
      · obtain ⟨length, hlength⟩ := hhit
        rw [substitute_hit hlength, List.nil_append] at h
        exact hbehind length h
      · rw [substitute_miss hhit] at h
        rcases List.mem_cons.mp h with rfl | h
        · exact ⟨[], s, rfl, hhit⟩
        · exact hbehind 0 h

/-- Nothing is deleted exactly when the pattern takes nothing anywhere. -/
theorem delete_eq_self_iff {s : List α} : delete pattern s = s ↔ ∀ t, t <:+ s → t ≠ [] → ¬ Hit pattern t := by
  rw [delete]
  induction s with
  | nil =>
    refine ⟨fun _ t ht hne => absurd (List.suffix_nil.mp ht) hne, fun _ => rfl⟩
  | cons a s ih =>
    have hcons : (∀ t, t <:+ a :: s → t ≠ [] → ¬ Hit pattern t) ↔
        ¬ Hit pattern (a :: s) ∧ ∀ t, t <:+ s → t ≠ [] → ¬ Hit pattern t := by
      simp only [List.suffix_cons_iff, or_imp, forall_and, forall_eq, ne_eq, List.cons_ne_nil,
        not_false_eq_true, forall_const]
    rw [hcons, ← ih]
    by_cases hhit : Hit pattern (a :: s)
    · obtain ⟨length, hlength⟩ := hhit
      rw [substitute_hit hlength, List.nil_append]
      have hshort := (@substitute_sublist _ pattern length s).length_le
      constructor
      · intro h
        rw [h, List.length_cons] at hshort
        omega
      · exact fun h => absurd ⟨length, hlength⟩ h.1
    · rw [substitute_miss hhit, List.cons_inj_right]
      exact ⟨fun h => ⟨hhit, h⟩, fun h => h.2⟩

/-- A window of a text without repetitions is a window of any part that holds all of it. -/
theorem infix_of_sublist {w s t : List α} (ht : t.Nodup) (hs : s.Sublist t) (hw : w <:+: t)
    (hmem : ∀ a ∈ w, a ∈ s) : w <:+: s := by
  obtain ⟨p, q, rfl⟩ := hw
  obtain ⟨s', c, rfl, hs', hc⟩ := List.sublist_append_iff.mp hs
  obtain ⟨a, b, rfl, ha, hb⟩ := List.sublist_append_iff.mp hs'
  have hpq := List.nodup_append.mp ht
  have hpw := List.nodup_append.mp hpq.1
  have hwb : w ⊆ b := by
    intro x hx
    rcases List.mem_append.mp (hmem x hx) with hx' | hx'
    · rcases List.mem_append.mp hx' with hx' | hx'
      · exact absurd rfl (hpw.2.2 x (ha.subset hx') x hx)
      · exact hx'
    · exact absurd rfl (hpq.2.2 x (List.mem_append_right p hx) x (hc.subset hx'))
  have hbw : b = w := hb.eq_of_length_le (hpw.2.1.subperm hwb).length_le
  exact ⟨a, c, by rw [hbw]⟩

/-- In a window of the text that is left as a window, the pattern takes nothing. -/
theorem miss_of_infix {a : α} {w s : List α} (hs : s.Nodup) (hleft : a ∈ delete pattern s)
    (hw : a :: w <:+: s) : ∃ t, ¬ Hit pattern (a :: w ++ t) := by
  obtain ⟨p, t, rfl, hmiss⟩ := miss_of_mem_substitute hleft
  obtain ⟨p', t', hsplit⟩ := hw
  rw [List.append_assoc] at hsplit
  have hnodup := List.nodup_middle.mp hs
  rw [List.nodup_cons, List.mem_append, not_or] at hnodup
  have hsame : t = w ++ t' := ((List.append_cons_inj_of_notMem hnodup.1.1 hnodup.1.2).mp hsplit.symm).2.2
  exact ⟨t', by rwa [List.cons_append, ← hsame]⟩

end delete

/-! Deletions of single elements and of pairs of one element, by equality. -/

section pair

/-- Two elements come together just when all between them goes. -/
theorem pair_infix_filter_iff (p : α → Bool) {c d : α} (hc : p c = true) (hd : p d = true) {t : List α} :
    [c, d] <:+: t.filter p ↔ ∃ w, (∀ a ∈ w, p a = false) ∧ c :: w ++ [d] <:+: t := by
  constructor
  · intro h
    obtain ⟨u, v, huv⟩ := h
    rw [List.append_assoc] at huv
    obtain ⟨u', t', rfl, -, htail⟩ := List.filter_eq_append_iff.mp huv.symm
    obtain ⟨w, t', rfl, -, -, htail⟩ := List.filter_eq_cons_iff.mp htail
    obtain ⟨w', t', rfl, hw', -, -⟩ := List.filter_eq_cons_iff.mp htail
    refine ⟨w', fun a ha => Bool.eq_false_iff.mpr (hw' a ha), u' ++ w, t', ?_⟩
    simp
  · intro h
    obtain ⟨w, hw, u, v, rfl⟩ := h
    have hnone : w.filter p = [] := List.filter_eq_nil_iff.mpr fun a ha => Bool.eq_false_iff.mp (hw a ha)
    refine ⟨u.filter p, v.filter p, ?_⟩
    simp [hc, hd, hnone]

variable [DecidableEq α]

theorem delete_singleton (c : α) (s : List α) : delete (ofWord id [c]) s = s.filter fun a => a ≠ c := by
  have hsep : ∀ a : α, id a = id c → a = c := fun a h => h
  rw [delete, substitute_single hsep]
  induction s with
  | nil => rfl
  | cons a s ih =>
    rw [List.flatMap_cons, ih]
    by_cases ha : a = c
    · simp [ha]
    · simp [ha]

/-- One element after the other: what is left is in none of the words. -/
theorem foldl_delete_singletons (cs s : List α) :
    (cs.map fun c => [c]).foldl (fun s word => delete (ofWord id word) s) s =
      s.filter fun a => a ∉ cs := by
  induction cs generalizing s with
  | nil => simp
  | cons c cs ih =>
    rw [List.map_cons, List.foldl_cons, ih, delete_singleton, List.filter_filter]
    apply List.filter_congr
    intro a ha
    simp [Bool.and_comm]

/-- Every run of `c` cut to one if it is odd, and to none if it is even. -/
def oddRuns (c : α) : List α → List α
  | [] => []
  | a :: s => if a = c ∧ (oddRuns c s).head? = some c then (oddRuns c s).tail else a :: oddRuns c s

/-- No two are left next to each other. -/
theorem oddRuns_single (c : α) {s t : List α} (h : oddRuns c s = c :: t) : t.head? ≠ some c := by
  induction s generalizing t with
  | nil => cases h
  | cons a s ih =>
    rw [oddRuns] at h
    split at h
    · next hpair =>
      obtain ⟨v, hv⟩ := List.head?_eq_some_iff.mp hpair.2
      have hnext := ih hv
      rw [hv, List.tail_cons] at h
      rw [h] at hnext
      exact absurd rfl hnext
    · next hpair =>
      obtain ⟨rfl, rfl⟩ := List.cons.inj h
      exact fun hhead => hpair ⟨rfl, hhead⟩

theorem oddRuns_pair (c : α) (s : List α) : oddRuns c (c :: c :: s) = oddRuns c s := by
  by_cases hhead : (oddRuns c s).head? = some c
  · obtain ⟨t, ht⟩ := List.head?_eq_some_iff.mp hhead
    have hone : oddRuns c (c :: s) = t := by rw [oddRuns, if_pos ⟨rfl, hhead⟩, ht, List.tail_cons]
    rw [oddRuns, hone, if_neg fun h => oddRuns_single c ht h.2, ht]
  · have hone : oddRuns c (c :: s) = c :: oddRuns c s := by rw [oddRuns, if_neg fun h => hhead h.2]
    rw [oddRuns, hone, if_pos ⟨rfl, rfl⟩, List.tail_cons]

theorem oddRuns_other {a c : α} (ha : a ≠ c) (s : List α) : oddRuns c (a :: s) = a :: oddRuns c s := by
  rw [oddRuns, if_neg fun h => ha h.1]

/-- Pairs are deleted from the left, which leaves of each run what its parity says. -/
theorem miss_pair {a c : α} {t : List α} (hpair : ¬ (a = c ∧ t.head? = some c)) :
    ¬ Hit (ofWord id [c, c]) (a :: t) := by
  intro hhit
  obtain ⟨length, hlength⟩ := hhit
  rw [ofWord] at hlength
  split at hlength
  · next hstart =>
    obtain ⟨p, hp, u, hu⟩ := startsWith_iff.mp hstart
    rw [List.map_id, List.map_id] at hp
    rw [hp] at hu
    obtain ⟨rfl, rfl⟩ := List.cons.inj hu
    exact hpair ⟨rfl, rfl⟩
  · cases hlength

theorem delete_pair (c : α) : ∀ s : List α, delete (ofWord id [c, c]) s = oddRuns c s
  | [] => rfl
  | [a] => by
    have hone : oddRuns c [a] = [a] := by simp [oddRuns]
    have hmiss : ¬ Hit (ofWord id [c, c]) [a] := miss_pair (by simp)
    rw [delete, substitute_miss hmiss, substitute_nil, hone]
  | a :: b :: s => by
    by_cases hpair : a = c ∧ b = c
    · obtain ⟨rfl, rfl⟩ := hpair
      have hmatch : ofWord id [b, b] ([b, b] ++ s) = some [b, b].length := by
        rw [ofWord, if_pos (startsWith_append rfl s)]
      rw [oddRuns_pair, ← delete_pair b s]
      exact substitute_match (List.cons_ne_nil b [b]) hmatch
    · have hhead : ¬ (a = c ∧ (b :: s).head? = some c) := fun h => hpair ⟨h.1, Option.some.inj h.2⟩
      have hfront : delete (ofWord id [c, c]) (a :: b :: s) =
          a :: delete (ofWord id [c, c]) (b :: s) := substitute_miss (miss_pair hhead)
      rw [hfront, delete_pair c (b :: s)]
      by_cases ha : a = c
      · have hb : b ≠ c := fun hb => hpair ⟨ha, hb⟩
        have hrest : (oddRuns c (b :: s)).head? ≠ some c := by
          rw [oddRuns_other hb, List.head?_cons]
          exact fun h => hb (Option.some.inj h)
        have hkeep : ¬ (a = c ∧ (oddRuns c (b :: s)).head? = some c) := fun h => hrest h.2
        exact (if_neg hkeep).symm
      · rw [oddRuns_other ha]

end pair

end RubbishStore.Lib.Replace
