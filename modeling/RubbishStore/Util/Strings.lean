import RubbishStore.Lib.Shortest
import RubbishStore.Lib.Utf8

/- `Util_String`: the two spellings of a name that a validator needs, where letters are
   the ASCII letters; and `truncate`, whose three counters stay on one boundary of the
   string (`truncateLoop_boundary`), so that it keeps the shortest beginning that is as
   wide as asked for (`truncate_shortest`). -/
namespace RubbishStore.Util.Strings
open RubbishStore.Lib RubbishStore.Lib.Shortest RubbishStore.Lib.Utf8

/-- A character behind which `ucwords` takes a word to start. -/
def isDelimiter (c : Char) : Bool :=
  c = ' ' || c = '\t' || c = '\r' || c = '\n' || c.toNat = 12 || c.toNat = 11

/-- `ucwords`; the flag says that a word starts here. -/
def ucwords : Bool → Text → Text
  | _, [] => []
  | start, c :: s => (if start then c.toUpper else c) :: ucwords (isDelimiter c) s

def studly (string : Text) : Text :=
  let string := ucwords true (string.map fun c => if c = '-' ∨ c = '_' then ' ' else c)
  string.filter fun c => c ≠ ' '

/-- `preg_replace('/(.)([A-Z])/', '$1_$2', $string)`: a match takes two characters, and
    the search goes on behind it. -/
def delimited : Text → Text
  | c :: c' :: s =>
    if c ≠ '\n' ∧ c'.isUpper then c :: '_' :: c' :: delimited s else c :: delimited (c' :: s)
  | s => s

def snake (string : Text) : Text :=
  if string ≠ [] ∧ string.all Char.isLower then string else (delimited string).map Char.toLower

/-- Upper case changes letters only. -/
theorem toUpper_cases (c : Char) : c.toUpper = c ∨ c.toUpper.isUpper := by
  by_cases h : 'a'.val ≤ c.val ∧ c.val ≤ 'z'.val
  · right
    have hval : c.toUpper.val = c.val + ('A'.val - 'a'.val) := by
      delta Char.toUpper
      rw [dif_pos h]
    have hrange : 65 ≤ c.toUpper.val.toNat ∧ c.toUpper.val.toNat ≤ 90 := by
      have hshift : ('A'.val - 'a'.val).toNat = 4294967264 := by decide
      have hlow : 97 ≤ c.val.toNat := UInt32.le_iff_toNat_le.mp h.1
      have hhigh : c.val.toNat ≤ 122 := UInt32.le_iff_toNat_le.mp h.2
      rw [hval, UInt32.toNat_add, hshift]
      omega
    exact decide_eq_true ⟨UInt32.le_iff_toNat_le.mpr hrange.1, UInt32.le_iff_toNat_le.mpr hrange.2⟩
  · exact .inl (dif_neg h)

theorem mem_ucwords {start : Bool} {s : Text} {c : Char} (h : c ∈ ucwords start s) :
    c ∈ s ∨ c.isUpper := by
  induction s generalizing start with
  | nil => cases h
  | cons a s ih =>
    rw [ucwords, List.mem_cons] at h
    obtain hc | h := h
    · split at hc
      · rw [hc]
        obtain hsame | hupper := toUpper_cases a
        · rw [hsame]
          exact .inl List.mem_cons_self
        · exact .inr hupper
      · rw [hc]
        exact .inl List.mem_cons_self
    · exact (ih h).imp_left (List.mem_cons_of_mem a)

/-- No separator is left in a studly name. -/
theorem separators_of_mem_studly {s : Text} {c : Char} (h : c ∈ studly s) :
    c ≠ ' ' ∧ c ≠ '-' ∧ c ≠ '_' := by
  obtain ⟨hmem, hblank⟩ := List.mem_filter.mp h
  refine ⟨of_decide_eq_true hblank, ?_⟩
  obtain hmem | hupper := mem_ucwords hmem
  · obtain ⟨a, -, rfl⟩ := List.mem_map.mp hmem
    split
    · exact ⟨by decide, by decide⟩
    · next hseparator => exact not_or.mp hseparator
  · refine ⟨?_, ?_⟩
    · rintro rfl
      cases hupper
    · rintro rfl
      cases hupper

/-! A name in segments. -/

/-- Lower-case letters, at least one. -/
def IsSegment (s : Text) : Prop := s ≠ [] ∧ ∀ c ∈ s, c.isLower

def joined (segments : List Text) : Text := ['_'].intercalate segments

/-- `ucfirst` -/
def capitalize : Text → Text
  | [] => []
  | c :: s => c.toUpper :: s

theorem isLower_range {c : Char} (h : c.isLower) : 97 ≤ c.toNat ∧ c.toNat ≤ 122 := by
  have hbounds : (decide (c.val ≥ 'a'.val) && decide (c.val ≤ 'z'.val)) = true := h
  rw [Bool.and_eq_true, decide_eq_true_eq, decide_eq_true_eq] at hbounds
  exact ⟨UInt32.le_iff_toNat_le.mp hbounds.1, UInt32.le_iff_toNat_le.mp hbounds.2⟩

theorem upper_letter {c : Char} (h : c.isLower) :
    c.toUpper.isUpper ∧ c.toUpper.toLower = c ∧ c.toLower = c ∧ c.isUpper = false := by
  have hrange := isLower_range h
  have hall : ∀ n < 123, 97 ≤ n → (Char.ofNat n).toUpper.isUpper ∧
      (Char.ofNat n).toUpper.toLower = Char.ofNat n ∧ (Char.ofNat n).toLower = Char.ofNat n ∧
      (Char.ofNat n).isUpper = false := by decide
  have hc := hall c.toNat (Nat.lt_succ_of_le hrange.2) hrange.1
  rwa [Char.ofNat_toNat] at hc

theorem letter_ne {c d : Char} (h : c.isLower) (hd : d.isLower = false) : c ≠ d := by
  rintro rfl
  rw [hd] at h
  cases h

theorem isDelimiter_letter {c : Char} (h : c.isLower) : isDelimiter c = false := by
  have hrange := isLower_range h
  have hfeed : c.toNat ≠ 12 ∧ c.toNat ≠ 11 := by omega
  simp [isDelimiter, hfeed, letter_ne h (d := ' ') rfl, letter_ne h (d := '\t') rfl, letter_ne h (d := '\r') rfl,
    letter_ne h (d := '\n') rfl]

theorem ucwords_letters {s : Text} (h : ∀ c ∈ s, c.isLower) (rest : Text) :
    ucwords false (s ++ rest) = s ++ ucwords false rest := by
  induction s with
  | nil => rfl
  | cons c s ih =>
    obtain ⟨hc, hs⟩ := List.forall_mem_cons.mp h
    rw [List.cons_append, ucwords, isDelimiter_letter hc, ih hs]
    rfl

theorem ucwords_segment {s : Text} (h : IsSegment s) (rest : Text) :
    ucwords true (s ++ rest) = capitalize s ++ ucwords false rest := by
  obtain ⟨c, s, rfl⟩ := List.exists_cons_of_ne_nil h.1
  obtain ⟨hc, hs⟩ := List.forall_mem_cons.mp h.2
  rw [List.cons_append, ucwords, isDelimiter_letter hc, ucwords_letters hs]
  rfl

theorem filter_capitalize {s : Text} (h : IsSegment s) : (capitalize s).filter (fun c => c ≠ ' ') = capitalize s := by
  obtain ⟨c, s, rfl⟩ := List.exists_cons_of_ne_nil h.1
  obtain ⟨hc, hs⟩ := List.forall_mem_cons.mp h.2
  refine List.filter_eq_self.mpr fun d hd => decide_eq_true ?_
  rcases List.mem_cons.mp hd with rfl | hd
  · intro hblank
    have hupper := (upper_letter hc).1
    rw [hblank] at hupper
    cases hupper
  · exact letter_ne (hs d hd) rfl

/-- The words of the studly name are the segments. -/
theorem studly_joined {segments : List Text} (h : ∀ s ∈ segments, IsSegment s) :
    studly (joined segments) = segments.flatMap capitalize := by
  have hmap : ∀ s : Text, IsSegment s → s.map (fun c => if c = '-' ∨ c = '_' then ' ' else c) = s := by
    intro s hs
    calc s.map (fun c => if c = '-' ∨ c = '_' then ' ' else c) = s.map id :=
          List.map_congr_left fun c hc => if_neg (not_or.mpr ⟨letter_ne (hs.2 c hc) rfl, letter_ne (hs.2 c hc) rfl⟩)
      _ = s := List.map_id s
  induction segments with
  | nil => rfl
  | cons s segments ih =>
    obtain ⟨hs, hsegments⟩ := List.forall_mem_cons.mp h
    have hfirst := ucwords_segment hs
    cases segments with
    | nil =>
      have hword := hfirst []
      rw [List.append_nil, ucwords, List.append_nil] at hword
      rw [joined, List.intercalate_singleton, studly, hmap s hs, List.flatMap_singleton, hword,
        filter_capitalize hs]
    | cons t segments =>
      have hrest := ih hsegments
      rw [studly, joined] at hrest
      rw [studly, joined, List.intercalate_cons_cons, List.map_append, List.map_append, hmap s hs,
        List.append_assoc, hfirst, List.map_singleton, if_pos (.inr rfl), List.singleton_append, ucwords, List.filter_append,
        filter_capitalize hs, List.flatMap_cons, ← hrest]
      rfl

/-! The way back. -/

theorem delimited_lower {a c : Char} (hc : c.isLower) (rest : Text) :
    delimited (a :: c :: rest) = a :: delimited (c :: rest) := by
  have hlower : ¬ (a ≠ '\n' ∧ c.isUpper) := by
    rw [(upper_letter hc).2.2.2]
    exact fun h => Bool.false_ne_true h.2
  rw [delimited, if_neg hlower]

/-- A match takes the last character of a word along with the next capital. -/
theorem delimited_front {a : Char} {s : Text} {u : Char} (ha : a ≠ '\n') (hs : ∀ c ∈ s, c.isLower) (hu : u.isUpper)
    (rest : Text) : delimited (a :: (s ++ u :: rest)) = a :: (s ++ '_' :: u :: delimited rest) := by
  induction s generalizing a with
  | nil => rw [List.nil_append, delimited, if_pos ⟨ha, hu⟩, List.nil_append]
  | cons c s ih =>
    obtain ⟨hc, hs⟩ := List.forall_mem_cons.mp hs
    rw [List.cons_append, delimited_lower hc, ← List.cons_append, List.cons_append, ih (letter_ne hc rfl) hs]
    rfl

theorem delimited_letters {a : Char} {s : Text} (hs : ∀ c ∈ s, c.isLower) : delimited (a :: s) = a :: s := by
  induction s generalizing a with
  | nil => rfl
  | cons c s ih =>
    obtain ⟨hc, hs⟩ := List.forall_mem_cons.mp hs
    rw [delimited_lower hc, ih hs]

/-- No more can be put in than there are capitals behind the first character. -/
theorem length_delimited_le (s : Text) : (delimited s).length ≤ s.length + s.tail.countP Char.isUpper := by
  fun_induction delimited s with
  | case1 c c' s h ih =>
    have htail : s.tail.countP Char.isUpper ≤ s.countP Char.isUpper := (List.tail_sublist s).countP_le
    simp only [List.length_cons, List.tail_cons, List.countP_cons, h.2, if_true]
    omega
  | case2 c c' s h ih =>
    simp only [List.length_cons, List.tail_cons, List.countP_cons] at ih ⊢
    omega
  | case3 s h => exact Nat.le_add_right _ _

theorem countP_capitalize {segments : List Text} (h : ∀ s ∈ segments, IsSegment s) :
    (segments.flatMap capitalize).countP Char.isUpper = segments.length := by
  induction segments with
  | nil => rfl
  | cons s segments ih =>
    obtain ⟨hs, hsegments⟩ := List.forall_mem_cons.mp h
    obtain ⟨c, s, rfl⟩ := List.exists_cons_of_ne_nil hs.1
    obtain ⟨hc, hs⟩ := List.forall_mem_cons.mp hs.2
    have hnone : s.countP Char.isUpper = 0 := by
      refine List.countP_eq_zero.mpr fun d hd => ?_
      rw [(upper_letter (hs d hd)).2.2.2]
      exact Bool.false_ne_true
    rw [List.flatMap_cons, List.countP_append, ih hsegments, capitalize,
      List.countP_cons_of_pos (upper_letter hc).1, hnone, List.length_cons, Nat.add_comm]

theorem length_flatMap_delimited (segments : List Text) :
    (segments.flatMap fun s => '_' :: capitalize s).length = (segments.flatMap capitalize).length + segments.length := by
  induction segments with
  | nil => rfl
  | cons s segments ih =>
    simp only [List.flatMap_cons, List.length_append, List.length_cons, ih]
    omega

/-- Behind a word of which something is left, every word is found that is followed by
    none or has two letters. -/
theorem delimited_segments {segments : List Text} (h : ∀ s ∈ segments, IsSegment s)
    (hlong : ∀ s ∈ segments.dropLast, s.length ≠ 1) {a : Char} {l : Text} (ha : a ≠ '\n')
    (hl : ∀ c ∈ l, c.isLower) :
    delimited (a :: (l ++ segments.flatMap capitalize)) =
      a :: (l ++ segments.flatMap fun s => '_' :: capitalize s) := by
  induction segments generalizing a l with
  | nil =>
    rw [List.flatMap_nil, List.flatMap_nil, List.append_nil]
    exact delimited_letters hl
  | cons s segments ih =>
    obtain ⟨hs, hsegments⟩ := List.forall_mem_cons.mp h
    obtain ⟨c, s, rfl⟩ := List.exists_cons_of_ne_nil hs.1
    obtain ⟨hc, hs⟩ := List.forall_mem_cons.mp hs.2
    rw [List.flatMap_cons, List.flatMap_cons, capitalize, List.cons_append, delimited_front ha hl (upper_letter hc).1]
    cases s with
    | nil =>
      -- a single letter is the last word
      cases segments with
      | nil => rfl
      | cons t segments => exact absurd rfl (hlong [c] List.mem_cons_self)
    | cons b s =>
      obtain ⟨hb, hs⟩ := List.forall_mem_cons.mp hs
      have hrest : ∀ s ∈ segments.dropLast, s.length ≠ 1 := by
        intro t ht
        refine hlong t ?_
        rw [List.dropLast_cons_of_ne_nil (List.ne_nil_of_mem (List.mem_of_mem_dropLast ht))]
        exact List.mem_cons_of_mem _ ht
      have hword := ih hsegments hrest (letter_ne hb rfl) hs
      rw [List.cons_append, hword]
      rfl

/-- A single letter takes the boundary behind it away. -/
theorem length_delimited_lt {segments : List Text} (h : ∀ s ∈ segments, IsSegment s)
    (hshort : ∃ s ∈ segments.dropLast, s.length = 1) {a : Char} {l : Text} (ha : a ≠ '\n')
    (hl : ∀ c ∈ l, c.isLower) :
    (delimited (a :: (l ++ segments.flatMap capitalize))).length <
      (a :: (l ++ segments.flatMap fun s => '_' :: capitalize s)).length := by
  induction segments generalizing a l with
  | nil =>
    obtain ⟨s, hs, -⟩ := hshort
    cases hs
  | cons s segments ih =>
    obtain ⟨hs, hsegments⟩ := List.forall_mem_cons.mp h
    obtain ⟨c, s, rfl⟩ := List.exists_cons_of_ne_nil hs.1
    obtain ⟨hc, hs⟩ := List.forall_mem_cons.mp hs.2
    obtain ⟨t, ht, hone⟩ := hshort
    have hne : segments ≠ [] := by
      rintro rfl
      cases ht
    rw [List.dropLast_cons_of_ne_nil hne, List.mem_cons] at ht
    rw [List.flatMap_cons, List.flatMap_cons, capitalize, List.cons_append, delimited_front ha hl (upper_letter hc).1]
    cases s with
    | nil =>
      have hmost := length_delimited_le (segments.flatMap capitalize)
      have hcount : (segments.flatMap capitalize).tail.countP Char.isUpper + 1 = segments.length := by
        rw [← countP_capitalize hsegments]
        obtain ⟨s, segments, rfl⟩ := List.exists_cons_of_ne_nil hne
        obtain ⟨d, s, rfl⟩ := List.exists_cons_of_ne_nil (hsegments _ List.mem_cons_self).1
        have hd : d.isLower := (hsegments _ List.mem_cons_self).2 d List.mem_cons_self
        rw [List.flatMap_cons, capitalize, List.cons_append, List.tail_cons,
          List.countP_cons_of_pos (upper_letter hd).1]
      have hall := length_flatMap_delimited segments
      simp only [List.nil_append, List.length_cons, List.length_append, hall] at hmost ⊢
      omega
    | cons b s =>
      obtain ⟨hb, hs⟩ := List.forall_mem_cons.mp hs
      have hrest : t ∈ segments.dropLast := by
        refine ht.resolve_left fun he => ?_
        rw [he] at hone
        cases hone
      have hword := ih hsegments ⟨t, hrest, hone⟩ (letter_ne hb rfl) hs
      simp only [List.cons_append, List.length_cons, List.length_append] at hword ⊢
      omega

theorem joined_cons (s : Text) (segments : List Text) :
    joined (s :: segments) = s ++ segments.flatMap fun t => '_' :: t := by
  induction segments generalizing s with
  | nil => rw [joined, List.intercalate_singleton, List.flatMap_nil, List.append_nil]
  | cons t segments ih =>
    have hrest := ih t
    rw [joined] at hrest
    rw [joined, List.intercalate_cons_cons, hrest, List.flatMap_cons, List.append_assoc]
    rfl

theorem map_toLower {s : Text} (h : ∀ c ∈ s, c.isLower) : s.map Char.toLower = s := by
  calc s.map Char.toLower = s.map id := List.map_congr_left fun c hc => (upper_letter (h c hc)).2.2.1
    _ = s := List.map_id s

theorem length_flatMap_capitalize (segments : List Text) :
    (segments.flatMap fun s => '_' :: capitalize s).length = (segments.flatMap fun s => '_' :: s).length := by
  induction segments with
  | nil => rfl
  | cons s segments ih =>
    rw [List.flatMap_cons, List.flatMap_cons, List.length_append, List.length_append, ih]
    cases s <;> rfl

/-- The name comes back exactly if every segment but the first and the last has two
    letters. -/
theorem snake_studly_iff {segments : List Text} (hne : segments ≠ []) (h : ∀ s ∈ segments, IsSegment s) :
    snake (studly (joined segments)) = joined segments ↔ ∀ s ∈ segments.tail.dropLast, s.length ≠ 1 := by
  obtain ⟨s, segments, rfl⟩ := List.exists_cons_of_ne_nil hne
  obtain ⟨hs, hsegments⟩ := List.forall_mem_cons.mp h
  have hjoined : joined (s :: segments) = s ++ segments.flatMap fun t => '_' :: t := joined_cons s segments
  rw [studly_joined h, hjoined, List.flatMap_cons]
  obtain ⟨c, s, rfl⟩ := List.exists_cons_of_ne_nil hs.1
  obtain ⟨hc, hs⟩ := List.forall_mem_cons.mp hs.2
  have hcapital : ¬ (c.toUpper :: (s ++ segments.flatMap capitalize) ≠ [] ∧
      (c.toUpper :: (s ++ segments.flatMap capitalize)).all Char.isLower = true) := by
    intro hall
    have hlow := (upper_letter (List.all_eq_true.mp hall.2 _ List.mem_cons_self)).2.2.2
    rw [(upper_letter hc).1] at hlow
    cases hlow
  have hfirst : c.toUpper ≠ '\n' := by
    intro he
    have hupper := (upper_letter hc).1
    rw [he] at hupper
    cases hupper
  rw [capitalize, List.cons_append, snake, if_neg hcapital, List.tail_cons]
  constructor
  · intro hround t ht hone
    have hless := length_delimited_lt hsegments ⟨t, ht, hone⟩ hfirst hs
    have hsame := congrArg List.length hround
    simp only [List.length_map, List.length_append, List.length_cons, length_flatMap_capitalize] at hsame hless
    omega
  · intro hlong
    rw [delimited_segments hsegments hlong hfirst hs, List.map_cons, List.map_append, (upper_letter hc).2.1,
      map_toLower hs, List.map_flatMap]
    refine congrArg (c :: s ++ ·) (List.flatMap_congr fun t ht => ?_)
    obtain ⟨d, t, rfl⟩ := List.exists_cons_of_ne_nil (hsegments t ht).1
    obtain ⟨hd, ht⟩ := List.forall_mem_cons.mp (hsegments _ ht).2
    rw [capitalize, List.map_cons, List.map_cons, (upper_letter hd).2.1, map_toLower ht]
    rfl

/-! `truncate`, for a string in UTF-8. -/

/-- `while ($j < $length && $i < $limit)`, for less than `fuel` rounds; `$j` at its end. -/
def truncateLoop (string : Text) (limit : Int) : Nat → Nat → Nat → Nat → Option Nat
  | 0, _, _, _ => none
  | fuel + 1, charAtIndex, i, j =>
    if j < (encode string).length ∧ i < limit then
      let char := (string.drop charAtIndex).take 1
      let charLength := (encode char).length
      truncateLoop string limit fuel (charAtIndex + 1) (if charLength = 1 then i + 1 else i + 2)
        (j + charLength)
    else some j

/-- A round takes a character. -/
def truncate (string : Text) (limit : Int := 100) (ending : Octets := octets "...") : Option Octets := do
  let j ← truncateLoop string limit (string.length + 1) 0 0 0
  return if j < (encode string).length then (encode string).take j ++ ending else (encode string).take j

/-- How wide a character looks. -/
def visual (c : Char) : Nat := if c.utf8Size = 1 then 1 else 2

theorem truncateLoop_boundary {limit : Int} (kept rest : Text) {fuel : Nat} (hfuel : rest.length < fuel) :
    truncateLoop (kept ++ rest) limit fuel kept.length (weight visual kept) (encode kept).length =
      some (encode (kept ++ shortest visual (limit - weight visual kept).toNat rest)).length := by
  induction rest generalizing kept fuel with
  | nil =>
    obtain ⟨fuel, rfl⟩ := Nat.exists_eq_add_one.mpr (Nat.zero_lt_of_lt hfuel)
    rw [truncateLoop, List.append_nil, if_neg (fun h => Nat.lt_irrefl _ h.1), shortest, List.append_nil]
  | cons c rest ih =>
    obtain ⟨fuel, rfl⟩ := Nat.exists_eq_add_one.mpr (Nat.zero_lt_of_lt hfuel)
    have hinside := length_encode_lt kept c rest
    rw [truncateLoop]
    by_cases hmore : (weight visual kept : Int) < limit
    · have hchar : ((kept ++ c :: rest).drop kept.length).take 1 = [c] := by
        rw [List.drop_left]
        rfl
      have hwide : (if c.utf8Size = 1 then weight visual kept + 1 else weight visual kept + 2) =
          weight visual (kept ++ [c]) := by
        rw [weight_append, weight_cons, weight_nil, visual]
        split <;> rfl
      have hnext := ih (kept ++ [c]) (Nat.lt_of_succ_lt_succ hfuel)
      have hleft : (limit - weight visual (kept ++ [c])).toNat =
          (limit - weight visual kept).toNat - visual c := by
        rw [weight_append, weight_cons, weight_nil]
        omega
      rw [← List.append_cons, hleft, ← List.append_cons] at hnext
      rw [if_pos ⟨hinside, hmore⟩, shortest_cons visual (by omega)]
      simp only [hchar, length_encode_singleton, hwide]
      rw [← hnext, length_encode_concat, List.length_append]
      rfl
    · have hzero : (limit - weight visual kept).toNat = 0 := by omega
      rw [if_neg (fun h => hmore h.2), hzero, shortest_zero, List.append_nil]

theorem truncate_eq (s : Text) (limit : Int) (ending : Octets) {kept rest : Text}
    (hkept : shortest visual limit.toNat s = kept) (hs : kept ++ rest = s) :
    truncate s limit ending = some (encode kept ++ if rest = [] then [] else ending) := by
  have hloop : truncateLoop ([] ++ s) limit _ _ _ _ = _ := truncateLoop_boundary [] s (Nat.lt_succ_self _)
  simp only [List.nil_append, List.length_nil, weight_nil, encode_nil, Int.natCast_zero, Int.sub_zero,
    hkept] at hloop
  have htake : (encode s).take (encode kept).length = encode kept := by rw [← hs, encode_take_front]
  rw [truncate, hloop]
  show some (if _ then _ else _) = _
  rw [htake]
  cases rest with
  | nil =>
    rw [List.append_nil] at hs
    rw [hs, if_neg (Nat.lt_irrefl _), if_pos rfl, List.append_nil]
  | cons c rest =>
    rw [if_pos (hs ▸ length_encode_lt kept c rest), if_neg (List.cons_ne_nil c rest)]

/-- What is kept is the shortest beginning of the string that is as wide as the limit, or
    all of a string that is not; the end marker follows if something is left out. -/
theorem truncate_shortest (s : Text) (limit : Int) (h : 0 ≤ limit) (ending : Octets) :
    ∃ kept rest, s = kept ++ rest ∧
      truncate s limit ending = some (encode kept ++ if rest = [] then [] else ending) ∧
      (limit ≤ weight visual kept ∨ rest = []) ∧
      (∀ p, p <+: kept → p ≠ kept → weight visual p < limit) ∧ weight visual kept ≤ limit + 1 := by
  obtain ⟨rest, hs⟩ := shortest_front visual limit.toNat s
  refine ⟨shortest visual limit.toNat s, rest, hs.symm, truncate_eq s limit ending rfl hs, ?_, ?_, ?_⟩
  · by_cases hwide : limit.toNat ≤ weight visual s
    · exact .inl (Int.toNat_le.mp (le_weight_shortest_iff.mpr hwide))
    · have hall := shortest_eq_self (Nat.not_le.mp hwide)
      rw [hall, List.append_right_eq_self] at hs
      exact .inr hs
  · intro p hp hne
    have hlow := weight_lt_of_proper hp hne
    omega
  · have htwo : ∀ c ∈ s, visual c ≤ 2 := by
      intro c _
      rw [visual]
      split <;> decide
    by_cases hzero : limit.toNat = 0
    · rw [hzero, shortest_zero, weight_nil]
      omega
    · have hlast := weight_shortest_lt htwo (Nat.pos_of_ne_zero hzero)
      omega

theorem truncate_shortest_two : ∃ kept rest, ['a', 'é', 'b'] = kept ++ rest ∧
    truncate ['a', 'é', 'b'] 2 [46] = some (encode kept ++ if rest = [] then [] else [46]) ∧
    ((2 : Int) ≤ weight visual kept ∨ rest = []) ∧
    (∀ p, p <+: kept → p ≠ kept → weight visual p < (2 : Int)) ∧ weight visual kept ≤ (2 : Int) + 1 :=
  truncate_shortest ['a', 'é', 'b'] 2 (by decide) [46]

/-- The limit is passed by the second half of a wide character. -/
example : truncate ['a', 'é', 'b'] 2 [46] = some [97, 0xc3, 0xa9, 46] := by decide

end RubbishStore.Util.Strings
