import RubbishStore.Lib.Text
import Mathlib.Data.List.Infix
import Mathlib.Data.List.Count

/- The tags of a marked-up text, read byte by byte. `<` and a word character, or `</`,
   start a tag, which goes up to the next `>`; its name is the word in front, in lower
   case. `<!--` starts a comment, which goes up to `-->`. Any other `<` is text. An
   opening tag that ends in `/>` or has a void name opens nothing. The reader keeps
   its mode between two parts of a text, so the tags of a text in parts are the tags
   of the parts (`tagsFrom_append`). A list of tags is properly nested (`Nested`)
   exactly when a stack of names that takes them in order ends empty (`nested_iff`). -/
namespace RubbishStore.Lib.Tags

/-- `\w` -/
def isWord (b : UInt8) : Bool :=
  (48 ≤ b && b ≤ 57) || (65 ≤ b && b ≤ 90) || b = 95 || (97 ≤ b && b ≤ 122)

inductive Tag where
  | opening (name : Octets)
  | closing (name : Octets)
  deriving DecidableEq, Repr

inductive Mode where
  | text
  /-- Behind `<`. -/
  | less
  /-- Behind `<!`, or `<!-`. -/
  | bang (dash : Bool)
  /-- In a comment, behind some dashes, of which two count. -/
  | comment (dashes : Nat)
  /-- In a tag; whether its name goes on, and whether the last byte is a slash. -/
  | tag (closing : Bool) (name : Octets) (inName : Bool) (slash : Bool)
  deriving DecidableEq, Repr

namespace Mode

/-- What a byte of text starts. -/
def enter (b : UInt8) : Mode := if b = 60 then .less else .text

def next : Mode → UInt8 → Mode
  | .text, b => enter b
  | .less, b =>
    if b = 47 then .tag true [] true false
    else if isWord b then .tag false [lower b] true false
    else if b = 33 then .bang false
    else enter b
  | .bang dash, b => if b = 45 then (if dash then .comment 0 else .bang true) else enter b
  | .comment dashes, b =>
    if b = 45 then .comment (min 2 (dashes + 1))
    else if b = 62 ∧ dashes = 2 then .text
    else .comment 0
  | .tag closing name inName _, b =>
    if b = 62 then .text
    else if inName && isWord b then .tag closing (name ++ [lower b]) true false
    else .tag closing name false (b = 47)

def after (m : Mode) (s : Octets) : Mode := s.foldl next m

/-- In text or in a comment: where a `>` leads. -/
def Settled : Mode → Prop
  | .text => True
  | .comment _ => True
  | _ => False

end Mode

section tags
variable (void : Octets → Bool)

/-- The tag that a byte ends. -/
def emit : Mode → UInt8 → List Tag
  | .tag closing name _ slash, b =>
    if b = 62 then
      if closing then [.closing name] else if slash || void name then [] else [.opening name]
    else []
  | _, _ => []

/-- The tags that end in a text. -/
def tagsFrom : Mode → Octets → List Tag
  | _, [] => []
  | m, b :: s => emit void m b ++ tagsFrom (m.next b) s

def tags (s : Octets) : List Tag := tagsFrom void .text s

end tags

/-- The names that are open after some tags, the innermost first. -/
def nest : List Octets → List Tag → Option (List Octets)
  | names, [] => some names
  | names, .opening name :: ts => nest (name :: names) ts
  | top :: names, .closing name :: ts => if top = name then nest names ts else none
  | [], .closing _ :: _ => none

/-- Every opening tag has a closing tag of its name behind it, what is between them
    being properly nested, and there are no other closing tags. -/
inductive Nested : List Tag → Prop
  | nil : Nested []
  | pair {name : Octets} {inner rest : List Tag} (hinner : Nested inner) (hrest : Nested rest) :
      Nested (.opening name :: inner ++ .closing name :: rest)

/-! The reader. -/

open Mode

theorem isWord_lower : ∀ b, isWord (lower b) = isWord b :=
  forall_byte (by decide +kernel)

theorem lower_lower : ∀ b, lower (lower b) = lower b :=
  forall_byte (by decide +kernel)

theorem lower_eq_self : ∀ b, isWord b = false → lower b = b :=
  forall_byte (by decide +kernel)

/-- Only letters have a lower case. -/
theorem lower_eq_iff {b c : UInt8} (hc : isWord c = false) : lower b = c ↔ b = c := by
  refine ⟨fun h => ?_, fun h => ?_⟩
  · obtain rfl := h
    rw [isWord_lower] at hc
    exact (lower_eq_self b hc).symm
  · obtain rfl := h
    exact lower_eq_self b hc

theorem next_lower (m : Mode) (b : UInt8) : m.next (lower b) = m.next b := by
  have hspecial : ∀ c ∈ [(33 : UInt8), 45, 47, 60, 62], (lower b = c) = (b = c) := by
    intro c hc
    have hword : ∀ c ∈ [(33 : UInt8), 45, 47, 60, 62], isWord c = false := by simp [isWord]
    exact propext (lower_eq_iff (hword c hc))
  simp only [List.forall_mem_cons] at hspecial
  obtain ⟨hbang, hdash, hslash, hless, hgt, -⟩ := hspecial
  cases m <;> simp only [next, enter, isWord_lower, lower_lower, hbang, hdash, hslash, hless, hgt]

variable {void : Octets → Bool}

theorem emit_lower (m : Mode) (b : UInt8) : emit void m (lower b) = emit void m b := by
  have hgt : (lower b = 62) = (b = 62) := propext (lower_eq_iff (by decide))
  cases m <;> simp only [emit, hgt]

theorem after_append (m : Mode) (s t : Octets) : m.after (s ++ t) = (m.after s).after t :=
  List.foldl_append

@[simp]
theorem after_cons (m : Mode) (b : UInt8) (s : Octets) : m.after (b :: s) = (m.next b).after s := rfl

theorem tagsFrom_append (m : Mode) (s t : Octets) :
    tagsFrom void m (s ++ t) = tagsFrom void m s ++ tagsFrom void (m.after s) t := by
  induction s generalizing m with
  | nil => rfl
  | cons b s ih => rw [List.cons_append, tagsFrom, tagsFrom, ih, List.append_assoc, after_cons]

theorem after_map_lower (m : Mode) (s : Octets) : m.after (s.map lower) = m.after s := by
  induction s generalizing m with
  | nil => rfl
  | cons b s ih => rw [List.map_cons, after_cons, next_lower, ih, after_cons]

/-- The case of the letters does not matter. -/
theorem tagsFrom_map_lower (m : Mode) (s : Octets) :
    tagsFrom void m (s.map lower) = tagsFrom void m s := by
  induction s generalizing m with
  | nil => rfl
  | cons b s ih => rw [List.map_cons, tagsFrom, tagsFrom, emit_lower, next_lower, ih]

theorem settled_next {m : Mode} : (m.next 62).Settled := by
  cases m with
  | comment dashes =>
    rw [next, if_neg (by decide)]
    split <;> trivial
  | _ => trivial

/-- A tag ends in `>`, and behind one is text. -/
theorem emit_eq_nil {m : Mode} {b : UInt8} (h : emit void m b ≠ []) : b = 62 ∧ m.next b = .text := by
  cases m with
  | tag closing name inName slash =>
    by_cases hb : b = 62
    · exact ⟨hb, by rw [next, if_pos hb]⟩
    · rw [emit, if_neg hb] at h
      exact absurd rfl h
  | _ => exact absurd rfl h

theorem emit_length_le (m : Mode) (b : UInt8) : (emit void m b).length ≤ 1 := by
  cases m with
  | tag closing name inName slash =>
    rw [emit]
    split
    · split
      · exact Nat.le_refl 1
      · split <;> simp
    · simp
  | _ => simp [emit]

theorem tagsFrom_length_le (m : Mode) (s : Octets) :
    (tagsFrom void m s).length ≤ s.count 62 := by
  induction s generalizing m with
  | nil => rfl
  | cons b s ih =>
    have hrest := ih (m.next b)
    rw [tagsFrom, List.length_append]
    by_cases hb : b = 62
    · subst hb
      have hone := @emit_length_le void m 62
      rw [List.count_cons_self]
      omega
    · have hnone : emit void m b = [] := by
        by_contra h
        exact hb (emit_eq_nil h).1
      rw [hnone, List.count_cons_of_ne hb]
      simpa using hrest

theorem tagsFrom_eq_nil {m : Mode} {s : Octets} (h : 62 ∉ s) : tagsFrom void m s = [] := by
  have hlength := @tagsFrom_length_le void m s
  rw [List.count_eq_zero.mpr h] at hlength
  exact List.eq_nil_of_length_eq_zero (Nat.le_zero.mp hlength)

/-- What starts no tag: there is no `>` behind a `<`, or it comes at once. -/
def Tagless (s : Octets) : Prop := ∀ t, 60 :: t <:+ s → 62 ∉ t ∨ [62] <+: t

/-- And leaves none open. -/
def Plain (s : Octets) : Prop := ∀ t, 60 :: t <:+ s → [62] <+: t

theorem Tagless.tail {b : UInt8} {s : Octets} (h : Tagless (b :: s)) : Tagless s :=
  fun t ht => h t (ht.trans (List.suffix_cons b s))

theorem Plain.tail {b : UInt8} {s : Octets} (h : Plain (b :: s)) : Plain s :=
  fun t ht => h t (ht.trans (List.suffix_cons b s))

/-- A settled mode stays so, but for `<` in text. -/
theorem settled_next_of_ne {m : Mode} (hm : m.Settled) {b : UInt8} (h : m = .text → b ≠ 60) :
    (m.next b).Settled := by
  cases m with
  | text =>
    rw [next, enter, if_neg (h rfl)]
    trivial
  | comment dashes =>
    simp only [next]
    split
    · trivial
    · split <;> trivial
  | _ => exact hm.elim

theorem emit_of_settled {m : Mode} (hm : m.Settled) (b : UInt8) : emit void m b = [] := by
  cases m with
  | text => rfl
  | comment dashes => rfl
  | _ => exact hm.elim

theorem tagsFrom_of_tagless {s : Octets} (hs : Tagless s) {m : Mode} (hm : m.Settled) :
    tagsFrom void m s = [] := by
  induction s generalizing m with
  | nil => rfl
  | cons b s ih =>
    -- only a `<` in text leads out of the settled modes
    rw [tagsFrom, emit_of_settled hm, List.nil_append]
    by_cases hless : m = .text ∧ b = 60
    · obtain ⟨rfl, rfl⟩ := hless
      rcases hs s List.suffix_rfl with hnone | ⟨t, rfl⟩
      · exact tagsFrom_eq_nil hnone
      · -- behind `<`, a `>` is read as in text
        exact ih hs.tail (m := .text) trivial
    · exact ih hs.tail (settled_next_of_ne hm fun h hb => hless ⟨h, hb⟩)

theorem settled_of_plain {s : Octets} (hs : Plain s) {m : Mode} (hm : m.Settled) :
    (m.after s).Settled := by
  induction s generalizing m with
  | nil => exact hm
  | cons b s ih =>
    rw [after_cons]
    by_cases hless : m = .text ∧ b = 60
    · obtain ⟨rfl, rfl⟩ := hless
      obtain ⟨t, rfl⟩ := hs s List.suffix_rfl
      exact ih hs.tail (m := .text) trivial
    · exact ih hs.tail (settled_next_of_ne hm fun h hb => hless ⟨h, hb⟩)

/-! A closing tag as it is written. -/

def closeTag (name : Octets) : Octets := [60, 47] ++ name ++ [62]

theorem after_name {closing : Bool} {before name : Octets} (h : ∀ b ∈ name, isWord b = true) :
    (Mode.tag closing before true false).after name =
      .tag closing (before ++ name.map lower) true false := by
  induction name generalizing before with
  | nil => rw [List.map_nil, List.append_nil]; rfl
  | cons b name ih =>
    obtain ⟨hb, hname⟩ := List.forall_mem_cons.mp h
    have hne : b ≠ 62 := by
      rintro rfl
      cases hb
    rw [after_cons, next, if_neg hne, if_pos (by rw [hb]; rfl), ih hname, List.append_assoc]
    rfl

theorem not_mem_front {name : Octets} (h : ∀ b ∈ name, isWord b = true) : 62 ∉ [60, 47] ++ name := by
  rw [List.mem_append, not_or]
  refine ⟨by decide, fun hmem => ?_⟩
  cases h 62 hmem

/-- Behind text it is read as one. -/
theorem tags_closeTag {name : Octets} (h : ∀ b ∈ name, isWord b = true) :
    tags void (closeTag name) = [.closing (name.map lower)] ∧
      Mode.text.after (closeTag name) = .text := by
  have hname : Mode.text.after ([60, 47] ++ name) = .tag true (name.map lower) true false := by
    rw [after_append]
    exact after_name h
  constructor
  · rw [tags, closeTag, tagsFrom_append, tagsFrom_eq_nil (not_mem_front h), hname]
    rfl
  · rw [closeTag, after_append, hname]
    rfl

/-- Wherever a text ends with `>` and a tag, there is text behind it. -/
theorem after_of_tagsFrom_ne_nil {m : Mode} {s : Octets} (hs : 62 ∉ s)
    (h : tagsFrom void m (s ++ [62]) ≠ []) : m.after (s ++ [62]) = .text := by
  rw [tagsFrom_append, tagsFrom_eq_nil hs, List.nil_append, tagsFrom, tagsFrom, List.append_nil] at h
  rw [after_append]
  exact (emit_eq_nil h).2

/-! Nesting. -/

theorem nest_append (names : List Octets) (ts us : List Tag) :
    nest names (ts ++ us) = (nest names ts).bind fun names => nest names us := by
  induction ts generalizing names with
  | nil => rfl
  | cons t ts ih =>
    cases t with
    | opening name => exact ih _
    | closing name =>
      cases names with
      | nil => rfl
      | cons top names =>
        rw [List.cons_append, nest, nest]
        split
        · exact ih _
        · rfl

/-- A tag closes one name at most. -/
theorem length_le_of_nest {names rest : List Octets} {ts : List Tag} (h : nest names ts = some rest) :
    names.length ≤ rest.length + ts.length := by
  induction ts generalizing names with
  | nil =>
    injection h with h
    rw [h]
    exact Nat.le_refl _
  | cons t ts ih =>
    cases t with
    | opening name =>
      have hlength := ih h
      simp only [List.length_cons] at hlength ⊢
      omega
    | closing name =>
      cases names with
      | nil => exact Nat.zero_le _
      | cons top names =>
        rw [nest] at h
        split at h
        · have hlength := ih h
          simp only [List.length_cons]
          omega
        · cases h

/-! What a single tag does to the open names. -/

theorem nest_eq_self_iff {names : List Octets} {ts : List Tag} (hone : ts.length ≤ 1) :
    nest names ts = some names ↔ ts = [] := by
  refine ⟨fun h => ?_, fun h => by rw [h, nest]⟩
  match ts, hone with
  | [], _ => rfl
  | [.opening name], _ =>
    rw [nest, nest, Option.some.injEq] at h
    exact absurd (congrArg List.length h) (by simp)
  | [.closing name], _ =>
    cases names with
    | nil => cases h
    | cons top names =>
      rw [nest] at h
      split at h
      · rw [nest, Option.some.injEq] at h
        exact absurd (congrArg List.length h) (by simp)
      · cases h

/-- The tag that closes the innermost name, if there is one. -/
def closer (names : List Octets) : List Tag := (names.head?.map .closing).toList

theorem nest_eq_tail_iff {names : List Octets} {ts : List Tag} (hone : ts.length ≤ 1) :
    nest names ts = some names.tail ↔ ts = closer names := by
  cases names with
  | nil => exact nest_eq_self_iff hone
  | cons top names =>
    match ts, hone with
    | [], _ => simp [nest, closer]
    | [.opening name], _ =>
      simp only [nest, closer, List.tail_cons, Option.some.injEq, List.head?_cons, Option.map_some,
        Option.toList_some, List.cons.injEq, reduceCtorEq, false_and, iff_false]
      intro h
      have hlength := congrArg List.length h
      simp only [List.length_cons] at hlength
      omega
    | [.closing name], _ =>
      rw [nest]
      by_cases hname : top = name
      · simp [hname, nest, closer]
      · simp [hname, Ne.symm hname, closer]

/-- What one tag at most has to be, for a name to come in and then some to go. -/
def Pushes (names : List Octets) (name : Octets) (gone : Nat) : List Tag → Prop
  | [] => gone = 1 ∨ 1 ≤ gone ∧ names = []
  | [.opening read] => gone = 0 ∧ read = name
  | [.closing read] => names.head? = some read ∧ (gone = 2 ∨ 2 ≤ gone ∧ names.tail = [])
  | _ => False

instance (names : List Octets) (name : Octets) (gone : Nat) : DecidablePred (Pushes names name gone)
  | [] => inferInstanceAs (Decidable (gone = 1 ∨ 1 ≤ gone ∧ names = []))
  | [.opening read] => inferInstanceAs (Decidable (gone = 0 ∧ read = name))
  | [.closing read] =>
    inferInstanceAs (Decidable (names.head? = some read ∧ (gone = 2 ∨ 2 ≤ gone ∧ names.tail = [])))
  | .opening _ :: _ :: _ => .isFalse id
  | .closing _ :: _ :: _ => .isFalse id

theorem drop_eq_self_iff {names : List Octets} {n : Nat} : names = names.drop n ↔ n = 0 ∨ names = [] := by
  refine ⟨fun h => ?_, fun h => ?_⟩
  · have hlength := congrArg List.length h
    rw [List.length_drop] at hlength
    rcases Nat.eq_zero_or_pos n with hn | hn
    · exact .inl hn
    · exact .inr (List.eq_nil_of_length_eq_zero (by omega))
  · rcases h with rfl | rfl
    · rfl
    · exact List.drop_nil.symm

theorem nest_eq_drop_iff {names : List Octets} {name : Octets} {gone : Nat} {ts : List Tag}
    (hone : ts.length ≤ 1) :
    nest names ts = some ((name :: names).drop gone) ↔ Pushes names name gone ts := by
  match ts, hone with
  | [], _ =>
    rw [nest, Option.some.injEq, Pushes]
    cases gone with
    | zero => simp
    | succ n =>
      rw [List.drop_succ_cons, drop_eq_self_iff]
      simp
  | [.opening read], _ =>
    rw [nest, nest, Option.some.injEq, Pushes]
    cases gone with
    | zero => simp
    | succ n =>
      have hshort : (names.drop n).length ≤ names.length := by simp
      refine ⟨fun h => ?_, fun h => ?_⟩
      · rw [List.drop_succ_cons] at h
        rw [← h, List.length_cons] at hshort
        omega
      · obtain ⟨h, -⟩ := h
        omega
  | [.closing read], _ =>
    rw [Pushes]
    cases names with
    | nil => simp [nest]
    | cons top names =>
      by_cases htop : top = read
      · rw [nest, if_pos htop, nest, Option.some.injEq, List.head?_cons, List.tail_cons, htop]
        match gone with
        | n + 2 =>
          rw [List.drop_succ_cons, List.drop_succ_cons, drop_eq_self_iff]
          simp
        | 0 | 1 =>
          -- more is open than before
          refine ⟨fun h => ?_, by omega⟩
          have hlength := congrArg List.length h
          simp only [List.drop_zero, List.drop_succ_cons, List.length_cons] at hlength
          omega
      · simp [nest, htop]

/-! The closing tags of what is open, one after the other. -/

theorem count_closeTag {name : Octets} (h : ∀ b ∈ name, isWord b = true) : (closeTag name).count 62 = 1 := by
  rw [closeTag, List.count_append, List.count_eq_zero.mpr (not_mem_front h)]
  rfl

theorem count_closeTags {names : List Octets} (h : ∀ name ∈ names, ∀ b ∈ name, isWord b = true) :
    (names.flatMap closeTag).count 62 = names.length := by
  induction names with
  | nil => rfl
  | cons name names ih =>
    obtain ⟨hname, hnames⟩ := List.forall_mem_cons.mp h
    rw [List.flatMap_cons, List.count_append, count_closeTag hname, ih hnames, List.length_cons, Nat.add_comm]

/-- A text is read up to its first `>` in one way. -/
theorem append_gt_inj {s s' t t' : Octets} (hs : 62 ∉ s) (hs' : 62 ∉ s') (h : s ++ 62 :: t = s' ++ 62 :: t') :
    s = s' ∧ t = t' := by
  obtain ⟨more, rfl, hrest⟩ | ⟨more, rfl, hrest⟩ := List.append_eq_append_iff.mp h
  · cases more with
    | nil => exact ⟨(List.append_nil s).symm, (List.cons.inj hrest).2⟩
    | cons b more =>
      rw [(List.cons.inj hrest).1] at hs'
      exact absurd (List.mem_append_right s List.mem_cons_self) hs'
  · cases more with
    | nil => exact ⟨List.append_nil s', (List.cons.inj hrest).2.symm⟩
    | cons b more =>
      rw [(List.cons.inj hrest).1] at hs
      exact absurd (List.mem_append_right s' List.mem_cons_self) hs

theorem closeTags_injective {names names' : List Octets} (hnames : ∀ name ∈ names, 62 ∉ name)
    (hnames' : ∀ name ∈ names', 62 ∉ name) (h : names.flatMap closeTag = names'.flatMap closeTag) :
    names = names' := by
  induction names generalizing names' with
  | nil =>
    cases names' with
    | nil => rfl
    | cons name' names' => cases h
  | cons name names ih =>
    cases names' with
    | nil => cases h
    | cons name' names' =>
      rw [List.forall_mem_cons] at hnames hnames'
      simp only [List.flatMap_cons, closeTag, List.append_assoc, List.append_cancel_left_eq,
        List.singleton_append] at h
      obtain ⟨hname, hrest⟩ := append_gt_inj hnames.1 hnames'.1 h
      rw [hname, ih hnames.2 hnames'.2 hrest]

theorem nest_closeTags_text {names : List Octets} (h : ∀ name ∈ names, ∀ b ∈ name, isWord b = true) :
    nest (names.map (·.map lower)) (tags void (names.flatMap closeTag)) = some [] := by
  induction names with
  | nil => rfl
  | cons name names ih =>
    obtain ⟨hname, hnames⟩ := List.forall_mem_cons.mp h
    obtain ⟨htags, hafter⟩ := @tags_closeTag void name hname
    rw [List.flatMap_cons, tags, tagsFrom_append, ← tags, htags, hafter, List.map_cons,
      List.singleton_append, nest, if_pos rfl]
    exact ih hnames

/-- They close everything exactly when the first of them is read as a tag. -/
theorem nest_closeTags_iff {names : List Octets} (h : ∀ name ∈ names, ∀ b ∈ name, isWord b = true) (m : Mode) :
    nest (names.map (·.map lower)) (tagsFrom void m (names.flatMap closeTag)) = some [] ↔
      ∀ name, names.head? = some name → tagsFrom void m (closeTag name) = [.closing (name.map lower)] := by
  cases names with
  | nil => exact iff_of_true rfl fun name hname => by cases hname
  | cons name names =>
    obtain ⟨hname, hnames⟩ := List.forall_mem_cons.mp h
    simp only [List.head?_cons, Option.some.injEq, forall_eq', List.flatMap_cons, List.map_cons]
    rw [tagsFrom_append]
    refine ⟨fun hnest => ?_, fun hread => ?_⟩
    · -- one tag for every name is needed, and no more can be had
      have hfirst := @tagsFrom_length_le void m (closeTag name)
      have hrest := @tagsFrom_length_le void (m.after (closeTag name)) (names.flatMap closeTag)
      rw [count_closeTag hname] at hfirst
      rw [count_closeTags hnames] at hrest
      match hread : tagsFrom void m (closeTag name), hfirst with
      | [], _ =>
        rw [hread, List.nil_append] at hnest
        have hlength := length_le_of_nest hnest
        simp only [List.length_cons, List.length_map, List.length_nil] at hlength
        omega
      | [.opening read], _ =>
        rw [hread, List.singleton_append, nest] at hnest
        have hlength := length_le_of_nest hnest
        simp only [List.length_cons, List.length_map, List.length_nil] at hlength
        omega
      | [.closing read], _ =>
        rw [hread, List.singleton_append, nest] at hnest
        split at hnest
        · next heq => rw [heq]
        · cases hnest
    · have hne : tagsFrom void m (closeTag name) ≠ [] := by
        rw [hread]
        exact List.cons_ne_nil _ []
      have hafter : m.after (closeTag name) = .text := after_of_tagsFrom_ne_nil (not_mem_front hname) hne
      rw [hread, hafter, List.singleton_append, nest, if_pos rfl]
      exact nest_closeTags_text hnames

theorem Nested.nest {ts : List Tag} (h : Nested ts) (names : List Octets) :
    Tags.nest names ts = some names := by
  -- over any stack: the inside of a pair is taken with the name of the pair on top
  induction h generalizing names with
  | nil => rfl
  | @pair name inner rest hinner hrest ihinner ihrest =>
    rw [List.cons_append, Tags.nest, nest_append, ihinner, Option.bind_some, Tags.nest, if_pos rfl, ihrest]

/-- Tags that close the given names, one after the other, with nested tags between. -/
def Closes : List Octets → List Tag → Prop
  | [], ts => Nested ts
  | name :: names, ts => ∃ inner rest, Nested inner ∧ ts = inner ++ .closing name :: rest ∧ Closes names rest

theorem closes_cons {names : List Octets} {name : Octets} {inner ts : List Tag} (hinner : Nested inner)
    (h : Closes names ts) :
    Closes names (.opening name :: inner ++ .closing name :: ts) := by
  cases names with
  | nil => exact .pair hinner h
  | cons top names =>
    obtain ⟨inner', rest, hinner', rfl, hrest⟩ := h
    exact ⟨.opening name :: inner ++ .closing name :: inner', rest, .pair hinner hinner', by simp, hrest⟩

theorem closes_of_nest {names : List Octets} {ts : List Tag} (h : nest names ts = some []) :
    Closes names ts := by
  -- a name that comes in is the first to be closed behind it, which makes the pair
  induction ts generalizing names with
  | nil =>
    injection h with h
    rw [h]
    exact .nil
  | cons t ts ih =>
    cases t with
    | opening name =>
      have hbehind : Closes (name :: names) ts := ih h
      obtain ⟨inner, rest, hinner, rfl, hrest⟩ := hbehind
      exact closes_cons hinner hrest
    | closing name =>
      cases names with
      | nil => cases h
      | cons top names =>
        rw [nest] at h
        split at h
        · next heq => exact ⟨[], ts, .nil, by rw [heq]; rfl, ih h⟩
        · cases h

/-- The stack decides nesting. -/
theorem nested_iff {ts : List Tag} : Nested ts ↔ nest [] ts = some [] :=
  ⟨fun h => h.nest [], closes_of_nest⟩

instance : DecidablePred Nested := fun _ => decidable_of_iff' _ nested_iff

end RubbishStore.Lib.Tags
