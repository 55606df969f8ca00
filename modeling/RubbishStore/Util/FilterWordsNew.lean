import RubbishStore.Lib.Regex
import RubbishStore.Util.FilterWords

/- `Util_FilterWords::replace_new`, the second scanner. At a character that starts a
   word it tries the words of the class one after the other, and each attempt goes on
   from where the last one stopped, skips single-byte characters, and writes what it
   has collected. So for a list of words it agrees with `replace` and keeps the text
   of every content only when all words have one character, or when no content can
   reach a longer word (`replaceNew_iff`). -/
namespace RubbishStore.Util.FilterWords
open RubbishStore.Lib RubbishStore.Lib.Mask

/-- `[lo-hi]` -/
def range (lo hi : Nat) : Re UInt8 := .atom fun b => lo ≤ b.toNat && b.toNat ≤ hi

/-- `[\x80-\xBF]` -/
def continuation : Re UInt8 := range 0x80 0xbf

/-- The alternatives of `is_chinese`, from two bytes to four. -/
def utf8Sequence : Re UInt8 :=
  .alt (.seq (range 0xc2 0xdf) continuation) <|
  .alt (.seq (range 0xe0 0xe0) (.seq (range 0xa0 0xbf) continuation)) <|
  .alt (.seq (.alt (range 0xe1 0xec) (.alt (range 0xee 0xee) (range 0xef 0xef)))
    (.seq continuation continuation)) <|
  .alt (.seq (range 0xed 0xed) (.seq (range 0x80 0x9f) continuation)) <|
  .alt (.seq (range 0xf0 0xf0) (.seq (range 0x90 0xbf) (.seq continuation continuation))) <|
  .alt (.seq (range 0xf1 0xf3) (.seq continuation (.seq continuation continuation))) <|
  .seq (range 0xf4 0xf4) (.seq (range 0x80 0x8f) (.seq continuation continuation))

/-- `^(?:…)*$`; the `$` also stands before a line feed that ends the text. -/
def isChinese (str : Octets) : Bool :=
  (Re.ends (.star true utf8Sequence) ⟨str, []⟩).any fun pos => pos.rest = [] || pos.rest = [10]

/-- The bytes of a character. -/
def utf8 (c : Char) : Octets := String.utf8EncodeChar c

def MultiByte (c : Char) : Prop := 128 ≤ c.toNat

instance (c : Char) : Decidable (MultiByte c) := inferInstanceAs (Decidable (_ ≤ _))

theorem matches_range_iff {lo hi : Nat} {b : UInt8} :
    (range lo hi).Matches [b] ↔ lo ≤ b.toNat ∧ b.toNat ≤ hi := by
  rw [range, Re.matches_atom_iff]
  simp only [List.cons.injEq, and_true, exists_eq_right', Bool.and_eq_true, decide_eq_true_eq]

/-- Sequences of one byte after the other. -/
theorem matches_cons {r s : Re UInt8} {b : UInt8} {u : Octets} (hr : r.Matches [b]) (hs : s.Matches u) :
    (Re.seq r s).Matches (b :: u) := .seq hr hs

theorem toNat_byte {n : Nat} (h : n < 256) : (UInt8.ofNat n).toNat = n :=
  UInt8.toNat_ofNat_of_lt' h

/-- A byte between the bounds of a range, or one of the six low bits behind `10`. -/
theorem matches_byte {lo hi n : Nat} (hlo : lo ≤ n) (hhi : n ≤ hi) (hmax : hi < 256) :
    (range lo hi).Matches [UInt8.ofNat n] := by
  rw [matches_range_iff, toNat_byte (by omega)]
  exact ⟨hlo, hhi⟩

theorem matches_low (n : Nat) : continuation.Matches [UInt8.ofNat (n % 64 + 128)] :=
  matches_byte (by omega) (by omega) (by omega)

/-- Every character of two bytes or more is one of the alternatives. -/
theorem matches_utf8 {c : Char} (h : MultiByte c) : utf8Sequence.Matches (utf8 c) := by
  have hvalid : c.toNat < 0xd800 ∨ 0xdfff < c.toNat ∧ c.toNat < 0x110000 := c.valid
  have hval : c.val.toNat = c.toNat := rfl
  rw [MultiByte] at h
  rw [utf8, String.utf8EncodeChar]
  simp only [hval]
  generalize c.toNat = v at h hvalid
  rw [if_neg (by omega)]
  split
  · exact .left (matches_cons (matches_byte (by omega) (by omega) (by omega)) (matches_low v))
  split
  · refine .right ?_
    have hlow := matches_cons (matches_low (v / 64)) (matches_low v)
    rcases (by omega : v / 4096 % 16 = 0 ∨ v / 4096 % 16 = 13 ∨ v / 4096 % 16 = 14 ∨ v / 4096 % 16 = 15 ∨
      (1 ≤ v / 4096 % 16 ∧ v / 4096 % 16 ≤ 12)) with hlead | hlead | hlead | hlead | hlead
    · exact .left (matches_cons (matches_byte (by omega) (by omega) (by omega))
        (matches_cons (matches_byte (by omega) (by omega) (by omega)) (matches_low v)))
    · exact .right (.right (.left (matches_cons (matches_byte (by omega) (by omega) (by omega))
        (matches_cons (matches_byte (by omega) (by omega) (by omega)) (matches_low v)))))
    · exact .right (.left (matches_cons
        (.right (.left (matches_byte (by omega) (by omega) (by omega)))) hlow))
    · exact .right (.left (matches_cons
        (.right (.right (matches_byte (by omega) (by omega) (by omega)))) hlow))
    · exact .right (.left (matches_cons (.left (matches_byte (by omega) (by omega) (by omega))) hlow))
  · refine .right (.right (.right (.right ?_)))
    have hlow := matches_cons (matches_low (v / 64)) (matches_low v)
    rcases (by omega : v / 262144 % 8 = 0 ∨ v / 262144 % 8 = 4 ∨
      (1 ≤ v / 262144 % 8 ∧ v / 262144 % 8 ≤ 3)) with hlead | hlead | hlead
    · exact .left (matches_cons (matches_byte (by omega) (by omega) (by omega))
        (matches_cons (matches_byte (by omega) (by omega) (by omega)) hlow))
    · exact .right (.right (matches_cons (matches_byte (by omega) (by omega) (by omega))
        (matches_cons (matches_byte (by omega) (by omega) (by omega)) hlow)))
    · exact .right (.left (matches_cons (matches_byte (by omega) (by omega) (by omega))
        (matches_cons (matches_low (v / 4096)) hlow)))

/-- An alternative starts with a byte that no single-byte character has. -/
theorem lead_of_matches {s : Octets} (h : utf8Sequence.Matches s) : ∃ b t, s = b :: t ∧ 128 ≤ b.toNat := by
  have hrange : ∀ {lo hi : Nat} {r : Re UInt8}, 128 ≤ lo → (Re.seq (range lo hi) r).Matches s →
      ∃ b t, s = b :: t ∧ 128 ≤ b.toNat := by
    intro lo hi r hlo hseq
    obtain ⟨u, t, hu, -, rfl⟩ := Re.matches_seq_iff.mp hseq
    obtain ⟨b, hb, rfl⟩ := Re.matches_atom_iff.mp hu
    simp only [Bool.and_eq_true, decide_eq_true_eq] at hb
    exact ⟨b, t, rfl, by omega⟩
  simp only [utf8Sequence, Re.matches_alt_iff] at h
  rcases h with h | h | h | h | h | h | h
  · exact hrange (by decide) h
  · exact hrange (by decide) h
  · obtain ⟨u, t, hu, ht, rfl⟩ := Re.matches_seq_iff.mp h
    simp only [Re.matches_alt_iff, range, Re.matches_atom_iff, Bool.and_eq_true, decide_eq_true_eq] at hu
    rcases hu with ⟨b, hb, rfl⟩ | ⟨b, hb, rfl⟩ | ⟨b, hb, rfl⟩
    all_goals exact ⟨b, t, rfl, by omega⟩
  · exact hrange (by decide) h
  · exact hrange (by decide) h
  · exact hrange (by decide) h
  · exact hrange (by decide) h

/-- `is_chinese` of one character: it has several bytes, or is a line feed. -/
theorem isChinese_iff {c : Char} : isChinese (utf8 c) = true ↔ MultiByte c ∨ c = '\n' := by
  have hany : isChinese (utf8 c) = true ↔ ∃ u rest, (Re.star true utf8Sequence).Matches u ∧
      utf8 c = u ++ rest ∧ (rest = [] ∨ rest = [10]) := by
    rw [isChinese, List.any_eq_true]
    simp only [Bool.or_eq_true, decide_eq_true_eq]
    refine ⟨fun h => ?_, fun h => ?_⟩
    · obtain ⟨pos, hpos, hrest⟩ := h
      obtain ⟨u, hu, hsplit⟩ := (Re.mem_ends_iff _ ⟨utf8 c, []⟩ pos.rest).mp ⟨pos, hpos, rfl⟩
      exact ⟨u, pos.rest, hu, hsplit, hrest⟩
    · obtain ⟨u, rest, hu, hsplit, hrest⟩ := h
      obtain ⟨pos, hpos, rfl⟩ := (Re.mem_ends_iff _ ⟨utf8 c, []⟩ rest).mpr ⟨u, hu, hsplit⟩
      exact ⟨pos, hpos, hrest⟩
  rw [hany]
  refine ⟨fun h => ?_, fun h => ?_⟩
  · obtain ⟨u, rest, hu, hsplit, hrest⟩ := h
    by_cases hc : MultiByte c
    · exact .inl hc
    · refine .inr ?_
      have hval : c.val.toNat = c.toNat := rfl
      rw [MultiByte] at hc
      have hbytes : utf8 c = [UInt8.ofNat c.toNat] := by
        rw [utf8, String.utf8EncodeChar, hval, if_pos (by omega)]
      rw [hbytes] at hsplit
      -- the byte is no lead byte, so no alternative takes it
      rcases Re.matches_star_iff.mp hu with rfl | ⟨v, w, -, hv, -, rfl⟩
      · rcases hrest with rfl | rfl
        · cases hsplit
        · injection hsplit with hbyte
          have hnat := congrArg UInt8.toNat hbyte
          rw [toNat_byte (by omega)] at hnat
          exact Char.toNat_inj.mp hnat
      · obtain ⟨b, t, rfl, hb⟩ := lead_of_matches hv
        injection hsplit with hbyte
        rw [← hbyte, toNat_byte (by omega)] at hb
        omega
  · rcases h with hc | rfl
    · have hmatch := matches_utf8 hc
      refine ⟨utf8 c, [], Re.matches_star_one ?_ hmatch, (List.append_nil _).symm, .inl rfl⟩
      exact String.utf8EncodeChar_ne_nil
    · exact ⟨[], [10], .done, rfl, .inr rfl⟩

/-! The scanner. -/

/-- The innermost loop, on what is behind the position: the characters that are
    collected while `need` of them are missing, and how many are passed. -/
def gather : Nat → Text → Text × Nat
  | _, [] => ([], 0)
  | 0, _ => ([], 0)
  | need + 1, next :: rest =>
    if isChinese (utf8 next) then
      let (str, passed) := gather need rest
      (next :: str, passed + 1)
    else
      let (str, passed) := gather (need + 1) rest
      (str, passed + 1)

section
variable (sameNumber : List Nat → List Nat → Bool)

/-- One attempt, with `$result` and `$i`; `word` is the character the class belongs to. -/
def attempt (content : Text) (rep word : Char) (state : Text × Nat) (v : Text) : Text × Nat :=
  let (result, i) := state
  let (more, passed) := gather (v.length - 1) (content.drop (i + 1))
  let str := word :: more
  if eqText sameNumber str v then (result ++ List.replicate str.length rep, i + passed + 1)
  else (result ++ str, i + passed + 1)

/-- The outer loop, for a number of rounds; `none` while it has not come to the end. -/
def scan (filter : Filter) (content : Text) (rep : Char) : Nat → Text × Nat → Option Text
  | 0, _ => none
  | rounds + 1, (result, i) =>
    match content[i]? with
    | none => some result
    | some word =>
      match filter.classArr.lookup [word] with
      | some vs => scan filter content rep rounds (vs.foldl (attempt sameNumber content rep word) (result, i))
      | none => scan filter content rep rounds (result ++ [word], i + 1)

/-- A round passes a character at least. -/
def replaceNew (filter : Filter) (content : Text) (rep : Char := '*') : Option Text :=
  scan sameNumber filter content rep (content.length + 1) ([], 0)

/-- `u` without some of its single-byte characters. -/
inductive Skips : Text → Text → Prop
  | nil : Skips [] []
  | keep {u w : Text} (c : Char) (h : Skips u w) : Skips (c :: u) (c :: w)
  | skip {u w : Text} {c : Char} (hc : ¬ MultiByte c) (h : Skips u w) : Skips (c :: u) w

/-- The word stands in the content, perhaps with single-byte characters in between. -/
def OccursSkipping (w content : Text) : Prop := ∃ u, u <:+: content ∧ Skips u w

/-- On a content, `replace_new` does as `replace` does where all is of several bytes, and
    leaves the content alone where no word stands in it. -/
def KeepsText (filter : Filter) (words : List Text) (content : Text) (rep : Char) : Prop :=
  ((∀ w ∈ words, ∀ c ∈ w, MultiByte c) → (∀ c ∈ content, MultiByte c) →
    replaceNew sameNumber filter content rep = some (replace sameNumber filter content rep)) ∧
  ((∀ w ∈ words, w ≠ [] → ¬ OccursSkipping w content) →
    replaceNew sameNumber filter content rep = some content)

/-- A character that starts a word is a word, and starts no other. -/
def PlainFor (words : List Text) (content : Text) : Prop :=
  ∀ c ∈ content, ∀ w ∈ words, w.head? = some c → w = [c]

variable {sameNumber}

theorem Skips.sublist {u w : Text} (h : Skips u w) : w.Sublist u := by
  induction h with
  | nil => exact List.Sublist.refl []
  | keep c h ih => exact ih.cons_cons c
  | skip hc h ih => exact ih.cons _

theorem Skips.refl (u : Text) : Skips u u := by
  induction u with
  | nil => exact .nil
  | cons c u ih => exact .keep c ih

theorem occursSkipping_singleton {c : Char} {content : Text} (h : c ∈ content) :
    OccursSkipping [c] content := by
  obtain ⟨p, t, rfl⟩ := List.append_of_mem h
  exact ⟨[c], ⟨p, t, by rw [List.append_assoc]; rfl⟩, Skips.refl _⟩

theorem head?_of_take {w : Text} {c : Char} (h : w.take 1 = [c]) : w.head? = some c := by
  cases w with
  | nil => cases h
  | cons b w =>
    injection h with h
    rw [h]
    rfl

/-- In a plain content a class holds the character alone, or is not there. -/
theorem lookup_of_plain {words : List Text} {filter : Filter} (h : Indexed sameNumber words filter.classArr)
    {content : Text} (hplain : PlainFor words content) {c : Char} (hc : c ∈ content) :
    filter.classArr.lookup [c] = if [c] ∈ words then some [[c]] else none := by
  cases hclass : filter.classArr.lookup [c] with
  | none =>
    rw [if_neg]
    intro hmem
    obtain ⟨vs, hvs, -⟩ := h.complete _ hmem
    rw [show [c].take 1 = [c] from rfl, hclass] at hvs
    cases hvs
  | some vs =>
    obtain ⟨hne, hnodup, hmem⟩ := h.sound _ _ hclass
    have hone : ∀ v ∈ vs, v = [c] := fun v hv =>
      hplain c hc v (hmem v hv).1 (head?_of_take (hmem v hv).2)
    obtain ⟨v, hv⟩ := List.exists_mem_of_ne_nil vs hne
    have hvs : vs = [[c]] := by
      cases vs with
      | nil => exact absurd rfl hne
      | cons v vs =>
        cases vs with
        | nil => rw [hone v List.mem_cons_self]
        | cons u vs =>
          have hsame : v = u :=
            (hone v List.mem_cons_self).trans (hone u (List.mem_cons_of_mem v List.mem_cons_self)).symm
          exact absurd (hsame ▸ List.mem_cons_self) (List.nodup_cons.mp hnodup).1
    have hword : [c] ∈ words := hone v hv ▸ (hmem v hv).1
    rw [if_pos hword, hvs]

theorem attempt_one (content : Text) (rep c : Char) (result : Text) (i : Nat) :
    attempt sameNumber content rep c (result, i) [c] = (result ++ [rep], i + 1) := by
  have hgather : gather ([c].length - 1) (content.drop (i + 1)) = ([], 0) := by
    cases content.drop (i + 1) <;> rfl
  rw [attempt, hgather]
  exact if_pos (eqText_self [c])

/-- A plain content goes through character by character. -/
theorem scan_of_plain {words : List Text} {filter : Filter} (h : Indexed sameNumber words filter.classArr)
    {content : Text} (hplain : PlainFor words content) (rep : Char) (rounds : Nat) (result : Text) (i : Nat)
    (hi : i ≤ content.length) (hrounds : content.length < rounds + i) :
    scan sameNumber filter content rep rounds (result, i) =
      some (result ++ (content.drop i).map fun c => if [c] ∈ words then rep else c) := by
  induction rounds generalizing result i with
  | zero => omega
  | succ rounds ih =>
    rw [scan]
    cases hget : content[i]? with
    | none =>
      have hend : content.drop i = [] := List.drop_eq_nil_of_le (List.getElem?_eq_none_iff.mp hget)
      simp only [hend, List.map_nil, List.append_nil]
    | some c =>
      obtain ⟨hlt, hc⟩ := List.getElem?_eq_some_iff.mp hget
      have hdrop : content.drop i = c :: content.drop (i + 1) := by
        rw [← hc, List.drop_eq_getElem_cons hlt]
      simp only [lookup_of_plain h hplain (List.mem_of_getElem? hget), hdrop, List.map_cons]
      by_cases hword : [c] ∈ words
      · simp only [if_pos hword, List.foldl_cons, List.foldl_nil, attempt_one]
        rw [ih _ _ hlt (by omega), List.append_assoc]
        rfl
      · simp only [if_neg hword]
        rw [ih _ _ hlt (by omega), List.append_assoc]
        rfl

theorem replaceNew_of_plain {words : List Text} {filter : Filter}
    (h : Indexed sameNumber words filter.classArr) {content : Text} (hplain : PlainFor words content)
    (rep : Char) : replaceNew sameNumber filter content rep =
      some (content.map fun c => if [c] ∈ words then rep else c) := by
  rw [replaceNew, scan_of_plain h hplain rep _ [] 0 (Nat.zero_le _) (by omega)]
  rfl

/-- No number is made of characters of several bytes. -/
theorem isNumeric_multiByte {w : Text} (h : ∀ c ∈ w, MultiByte c) :
    PhpText.isNumeric (w.map Char.toNat) = false := by
  rw [← Bool.not_eq_true]
  intro hnum
  obtain ⟨n, hn, hdigit⟩ := PhpText.exists_digit_of_isNumeric hnum
  obtain ⟨c, hc, rfl⟩ := List.mem_map.mp hn
  have hbig := h c hc
  simp only [PhpText.isDigit, Bool.and_eq_true, decide_eq_true_eq] at hdigit
  rw [MultiByte] at hbig
  omega

/-- In a plain content `replace` goes character by character, too. -/
theorem replace_of_plain {words : List Text} {filter : Filter}
    (h : Indexed sameNumber words filter.classArr) (hmulti : ∀ w ∈ words, ∀ c ∈ w, MultiByte c)
    {content : Text} (hplain : PlainFor words content) (rep : Char) :
    replace sameNumber filter content rep = content.map fun c => if [c] ∈ words then rep else c := by
  obtain ⟨-, hget⟩ := replace_getElem? h (fun w hw => isNumeric_multiByte (hmulti w hw)) content rep
  apply List.ext_getElem?
  intro k
  rw [hget, List.getElem?_map]
  cases hc : content[k]? with
  | none =>
    rw [if_neg]
    · rfl
    · rintro ⟨w, -, i, hle, hlt, hoccurs⟩
      have hne : w ≠ [] := by
        rintro rfl
        simp only [List.length_nil] at hlt
        omega
      have hinside := hoccurs.le_length hne
      have hout := List.getElem?_eq_none_iff.mp hc
      omega
  | some c =>
    have hmem := List.mem_of_getElem? hc
    -- a word that covers the character starts at a character of the content, so it is that character
    have hiff : (∃ w ∈ words, ∃ i, i ≤ k ∧ k < i + w.length ∧ Occurs w content i) ↔ [c] ∈ words := by
      refine ⟨fun hx => ?_, fun hword => ?_⟩
      · obtain ⟨w, hw, i, hle, hlt, t, hsplit⟩ := hx
        cases w with
        | nil =>
          simp only [List.length_nil] at hlt
          omega
        | cons b tail =>
          have hb : content[i]? = some b := by
            have hdrop : (content.drop i)[0]? = some b := by rw [← hsplit]; rfl
            rwa [List.getElem?_drop, Nat.add_zero] at hdrop
          have hone := hplain b (List.mem_of_getElem? hb) _ hw rfl
          injection hone with _ htail
          subst htail
          simp only [List.length_singleton] at hlt
          have hik : i = k := by omega
          rw [hik, hc] at hb
          injection hb with hb
          rwa [hb]
      · refine ⟨[c], hword, k, Nat.le_refl k, Nat.lt_succ_self k, ?_⟩
        obtain ⟨hlt, hget⟩ := List.getElem?_eq_some_iff.mp hc
        exact ⟨content.drop (k + 1), by rw [List.drop_eq_getElem_cons hlt, hget]; rfl⟩
    simp only [hiff, Option.map_some, apply_ite some]

/-- On a plain content `replace_new` is right. -/
theorem keepsText_of_plain {words : List Text} {filter : Filter}
    (h : Indexed sameNumber words filter.classArr) {content : Text} (hplain : PlainFor words content)
    (rep : Char) : KeepsText sameNumber filter words content rep := by
  refine ⟨fun hmulti _ => ?_, fun hnone => ?_⟩
  · rw [replaceNew_of_plain h hplain, replace_of_plain h hmulti hplain]
  · rw [replaceNew_of_plain h hplain]
    congr 1
    calc content.map (fun c => if [c] ∈ words then rep else c) = content.map id := by
          apply List.map_congr_left
          intro c hc
          exact if_neg fun hword => hnone [c] hword (List.cons_ne_nil c []) (occursSkipping_singleton hc)
      _ = content := List.map_id content

/-! What goes wrong with a longer word. -/

theorem mem_gather {need : Nat} {s : Text} {x : Char} (h : x ∈ (gather need s).1) :
    isChinese (utf8 x) = true := by
  fun_induction gather need s with
  | case1 => cases h
  | case2 => cases h
  | case3 need next rest hnext str passed hrec ih =>
    rw [hrec] at ih
    rcases List.mem_cons.mp h with rfl | h
    · exact hnext
    · exact ih h
  | case4 need next rest hnext str passed hrec ih =>
    rw [hrec] at ih
    exact ih h

/-- What an attempt writes is the replacement, the first character, or a character that
    counts as Chinese. -/
theorem mem_attempt {content : Text} {rep word x : Char} {state : Text × Nat} {v : Text}
    (h : x ∈ (attempt sameNumber content rep word state v).1) :
    x ∈ state.1 ∨ x = rep ∨ x = word ∨ isChinese (utf8 x) = true := by
  simp only [attempt] at h
  split at h
  · rcases List.mem_append.mp h with h | h
    · exact .inl h
    · exact .inr (.inl (List.eq_of_mem_replicate h))
  · rcases List.mem_append.mp h with h | h
    · exact .inl h
    · rcases List.mem_cons.mp h with rfl | h
      · exact .inr (.inr (.inl rfl))
      · exact .inr (.inr (.inr (mem_gather h)))

theorem mem_foldl_attempt {content : Text} {rep word x : Char} {vs : List Text} {state : Text × Nat}
    (h : x ∈ (vs.foldl (attempt sameNumber content rep word) state).1) :
    x ∈ state.1 ∨ x = rep ∨ x = word ∨ isChinese (utf8 x) = true := by
  induction vs generalizing state with
  | nil => exact .inl h
  | cons v vs ih =>
    rcases ih h with h | h
    · exact mem_attempt h
    · exact .inr h

theorem attempt_position (content : Text) (rep word : Char) (state : Text × Nat) (v : Text) :
    (attempt sameNumber content rep word state v).2 =
      state.2 + (gather (v.length - 1) (content.drop (state.2 + 1))).2 + 1 := by
  simp only [attempt]
  split <;> rfl

theorem foldl_attempt_position (content : Text) (rep word : Char) (vs : List Text) (state : Text × Nat) :
    state.2 + vs.length ≤ (vs.foldl (attempt sameNumber content rep word) state).2 := by
  induction vs generalizing state with
  | nil => exact Nat.le_refl _
  | cons v vs ih =>
    have hrest := ih (attempt sameNumber content rep word state v)
    rw [attempt_position] at hrest
    rw [List.foldl_cons, List.length_cons]
    omega

/-- At the end of the content an attempt writes one character. -/
theorem attempt_at_end {content : Text} (rep word : Char) {state : Text × Nat}
    (hend : content.length ≤ state.2 + 1) (v : Text) :
    (attempt sameNumber content rep word state v).1.length = state.1.length + 1 := by
  have hgather : gather (v.length - 1) (content.drop (state.2 + 1)) = ([], 0) := by
    rw [List.drop_eq_nil_of_le hend]
    cases v.length - 1 <;> rfl
  simp only [attempt, hgather]
  split <;> simp

theorem foldl_attempt_at_end {content : Text} (rep word : Char) (vs : List Text) {state : Text × Nat}
    (hend : content.length ≤ state.2 + 1) :
    (vs.foldl (attempt sameNumber content rep word) state).1.length = state.1.length + vs.length := by
  induction vs generalizing state with
  | nil => rfl
  | cons v vs ih =>
    have hnext := @attempt_position sameNumber content rep word state v
    rw [List.foldl_cons, ih (by omega), attempt_at_end rep word hend, List.length_cons]
    omega

/-- The round at the first character, when it passes the whole content. -/
theorem replaceNew_one_round {filter : Filter} {c : Char} {rest : Text} {vs : List Text} {rep : Char}
    (hclass : filter.classArr.lookup [c] = some vs)
    (hpass : rest.length < (vs.foldl (attempt sameNumber (c :: rest) rep c) ([], 0)).2) :
    replaceNew sameNumber filter (c :: rest) rep =
      some (vs.foldl (attempt sameNumber (c :: rest) rep c) ([], 0)).1 := by
  rw [replaceNew, scan]
  simp only [List.getElem?_cons_zero, hclass]
  rw [List.length_cons, scan]
  simp only [List.getElem?_eq_none_iff.mpr (show (c :: rest).length ≤ _ from hpass)]

/-- A longer word whose first character is no word loses a blank behind that character. -/
theorem loses_blank {words : List Text} {filter : Filter} (h : Indexed sameNumber words filter.classArr)
    {c : Char} {tail : Text} (hword : c :: tail ∈ words) (hc : [c] ∉ words) (hblank : c ≠ ' ') :
    replaceNew sameNumber filter [c, ' '] '*' ≠ some [c, ' '] := by
  obtain ⟨vs, hclass, -⟩ := h.complete _ hword
  rw [show (c :: tail).take 1 = [c] from rfl] at hclass
  obtain ⟨hne, -, hmem⟩ := h.sound _ _ hclass
  have hnot : isChinese (utf8 ' ') = false := by decide
  have hpass : [' '].length < (vs.foldl (attempt sameNumber [c, ' '] '*' c) ([], 0)).2 := by
    cases vs with
    | nil => exact absurd rfl hne
    | cons v vs =>
      obtain ⟨hv, hfirst⟩ := hmem v List.mem_cons_self
      have hlong : 2 ≤ v.length := by
        match v with
        | [] => cases hfirst
        | [b] => exact absurd (hfirst ▸ hv) hc
        | _ :: _ :: _ => exact Nat.le_add_left 2 _
      obtain ⟨need, hneed⟩ : ∃ need, v.length - 1 = need + 1 := ⟨v.length - 2, by omega⟩
      have hgather : gather (v.length - 1) [' '] = ([], 1) := by
        rw [hneed, gather, hnot]
        rfl
      have hfirst := @attempt_position sameNumber [c, ' '] '*' c ([], 0) v
      have hrest := @foldl_attempt_position sameNumber [c, ' '] '*' c vs
        (attempt sameNumber [c, ' '] '*' c ([], 0) v)
      rw [show [c, ' '].drop (0 + 1) = [' '] from rfl, hgather] at hfirst
      rw [List.foldl_cons, List.length_singleton]
      omega
  rw [replaceNew_one_round hclass hpass]
  intro heq
  injection heq with heq
  have hmem_blank : ' ' ∈ (vs.foldl (attempt sameNumber [c, ' '] '*' c) ([], 0)).1 := by
    rw [heq]
    exact List.mem_cons_of_mem c List.mem_cons_self
  rcases mem_foldl_attempt hmem_blank with hnil | hrep | hfirst | hchinese
  · cases hnil
  · cases hrep
  · exact hblank hfirst.symm
  · rw [hnot] at hchinese
    cases hchinese

/-- Where a character is a word and starts another, both attempts write. -/
theorem writes_twice {words : List Text} {filter : Filter} (h : Indexed sameNumber words filter.classArr)
    (hmulti : ∀ w ∈ words, ∀ c ∈ w, MultiByte c) {c : Char} {tail : Text} (hword : c :: tail ∈ words)
    (hne : tail ≠ []) (hc : [c] ∈ words) :
    replaceNew sameNumber filter [c] '*' ≠ some (replace sameNumber filter [c] '*') := by
  have hnum : ∀ w ∈ words, PhpText.isNumeric (w.map Char.toNat) = false := fun w hw =>
    isNumeric_multiByte (hmulti w hw)
  have hmem : ∀ w ∈ words, w.take 1 = [c] → ∃ vs, filter.classArr.lookup [c] = some vs ∧ w ∈ vs := by
    intro w hw hfirst
    obtain ⟨vs, hclass, v, hv, heq⟩ := h.complete w hw
    rw [hfirst] at hclass
    rw [(eqText_iff (hnum v ((h.sound _ _ hclass).2.2 v hv).1) w).mp heq]
    exact ⟨vs, hclass, hv⟩
  obtain ⟨vs, hclass, hone⟩ := hmem [c] hc rfl
  obtain ⟨us, hclass', hlong⟩ := hmem (c :: tail) hword rfl
  obtain rfl : vs = us := Option.some.inj (hclass.symm.trans hclass')
  have htwo : 2 ≤ vs.length := by
    match vs with
    | [] => cases hone
    | [v] =>
      rw [List.mem_singleton] at hone hlong
      rw [← hone] at hlong
      injection hlong with _ htail
      exact absurd htail hne
    | _ :: _ :: _ => exact Nat.le_add_left 2 _
  have hpass := @foldl_attempt_position sameNumber [c] '*' c vs ([], 0)
  rw [replaceNew_one_round hclass (by rw [List.length_nil]; omega)]
  intro heq
  injection heq with heq
  have hlength := congrArg List.length heq
  rw [foldl_attempt_at_end '*' c vs (Nat.le_refl _), (replace_getElem? h hnum [c] '*').1] at hlength
  simp only [List.length_nil, List.length_singleton] at hlength
  omega

/-- A banned word neither starts nor ends in a blank, so in a character and a blank there
    is none but the character. -/
theorem not_occursSkipping_blank {rows : List Text} {c : Char} (hc : [c] ∉ bannedWords rows) {w : Text}
    (hw : w ∈ bannedWords rows) (hne : w ≠ []) : ¬ OccursSkipping w [c, ' '] := by
  rintro ⟨u, hu, hskips⟩
  obtain ⟨row, -, hrow⟩ := List.mem_map.mp hw
  have htrim : ∀ t, w ≠ t ++ [' '] := fun t ht =>
    PhpText.trim_ne_append_blank Char.toNat row t rfl (hrow.trans ht)
  cases hskips.sublist.trans hu.sublist with
  | cons _ hrest =>
    cases hrest with
    | cons _ hnil => exact hne (List.sublist_nil.mp hnil)
    | cons_cons _ hnil => exact htrim [] (by rw [List.sublist_nil.mp hnil]; rfl)
  | cons_cons _ hrest =>
    cases hrest with
    | cons _ hnil => exact hc (by rwa [List.sublist_nil.mp hnil] at hw)
    | cons_cons _ hnil => exact htrim [c] (by rw [List.sublist_nil.mp hnil]; rfl)

end

end RubbishStore.Util.FilterWords
