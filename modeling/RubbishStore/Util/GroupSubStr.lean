import RubbishStore.Lib.Utf8

/- `Util_PublicMethods::groupSubStr`. The loop takes groups of one to three bytes until it
   has `$Length` bytes or more. A character of four bytes is two groups, the second one
   its last byte; what is kept ends in the middle of the character exactly if the first
   group brings it to `$Length` (`collected_eq`). -/
namespace RubbishStore.Util.GroupSubStr
open RubbishStore.Lib RubbishStore.Lib.PhpText RubbishStore.Lib.Utf8

inductive Value where
  | null
  | string (s : Octets)
  deriving DecidableEq, Repr

/-- The array that `$StringLast` has become; without a first round there is none, and
    `implode` gives NULL. -/
def implode (stringLast : List Octets) : Value :=
  if stringLast = [] then .null else .string stringLast.flatten

/-- `if ($Append)`; the default is `false`. -/
def truthy : Option Octets → Option Octets
  | none => none
  | some s => if s = [] ∨ s = [48] then none else some s

/-- NULL counts as the empty string. -/
def append : Value → Octets → Value
  | .null, s => .string s
  | .string t, s => .string (t ++ s)

/-- How many bytes go together that start so. -/
def groupOf (b : UInt8) : Nat := if 224 ≤ b then 3 else if 192 ≤ b then 2 else 1

/-- `while ($i < $Length)`, for less than `fuel` rounds; `$StringLast` at its end. -/
def groupLoop (string : Octets) (length : Int) : Nat → Nat → List Octets → Option (List Octets)
  | 0, _, _ => none
  | fuel + 1, i, stringLast =>
    if i < length then
      let count := groupOf (ord (substr string i 1))
      groupLoop string length fuel (i + count) (stringLast ++ [substr string i count])
    else some stringLast

/-- A round goes on by a byte at least. -/
def groupSubStr (string : Octets) (length : Int) (appended : Option Octets := none) : Option Value :=
  if string.length ≤ length then some (.string string)
  else (groupLoop string length (length.toNat + 1) 0 []).map fun stringLast =>
    match truthy appended with
    | none => implode stringLast
    | some s => append (implode stringLast) s

/-- The groups that make up `n` bytes at least, of characters of up to four bytes. -/
def collected : Nat → List Character → List Octets
  | _, [] => []
  | n, c :: cs =>
    if n = 0 then []
    else if width c.lead = 4 then
      if n ≤ 3 then [c.bytes.take 3] else c.bytes.take 3 :: c.bytes.drop 3 :: collected (n - 4) cs
    else c.bytes :: collected (n - width c.lead) cs

/-- What is to come out of a string that is too long. -/
def KeepsCharacters (cs : List Character) (length : Int) : Prop :=
  ∃ kept, kept <+: cs ∧ groupSubStr (bytes cs) length = some (.string (bytes kept)) ∧
    length ≤ (bytes kept).length

/-! A round at a boundary. -/

theorem groupOf_lead : ∀ b, 0 < width b → width b ≤ 4 →
    groupOf b = if width b = 4 then 3 else width b :=
  forall_byte (by decide +kernel)

theorem groupOf_tail {b : UInt8} (h : isTail b = true) : groupOf b = 1 := by
  rw [isTail, Bool.and_eq_true, decide_eq_true_eq, decide_eq_true_eq] at h
  rw [groupOf, if_neg (by rw [UInt8.not_le]; exact UInt8.lt_trans h.2 (by decide)),
    if_neg (by rw [UInt8.not_le]; exact h.2)]

/-- The fourth byte of a character stands alone. -/
theorem drop_three (c : Character) (h : width c.lead = 4) :
    ∃ b, c.bytes.drop 3 = [b] ∧ isTail b = true := by
  have hlength : c.tail.length = 3 := Nat.succ.inj (c.width_eq.symm.trans h)
  have hlast : c.bytes.drop 3 = [c.tail[2]] := by
    rw [Character.bytes, List.drop_succ_cons, List.drop_eq_getElem_cons (by omega),
      List.drop_eq_nil_of_le (by omega)]
  exact ⟨c.tail[2], hlast, List.all_eq_true.mp c.tail_plain _ (List.getElem_mem _)⟩

section
variable {string : Octets} {length : Int} {fuel i : Nat} {stringLast : List Octets}

theorem groupLoop_end (h : length ≤ i) : groupLoop string length (fuel + 1) i stringLast = some stringLast := by
  rw [groupLoop, if_neg (Int.not_lt.mpr h)]

theorem groupLoop_round {count : Nat} (h : i < length) (hcount : groupOf (ord (substr string i 1)) = count) :
    groupLoop string length (fuel + 1) i stringLast =
      groupLoop string length fuel (i + count) (stringLast ++ [substr string i count]) := by
  rw [groupLoop, if_pos h]
  simp only [hcount]

end

section
variable (kept : List Character) {c : Character} (rest : List Character) {length : Int} {fuel : Nat}
  {stringLast : List Octets}

/-- A character of up to three bytes is one group. -/
theorem groupLoop_whole (hmore : (bytes kept).length < length) (hc : width c.lead ≤ 4) (hwide : width c.lead ≠ 4) :
    groupLoop (bytes (kept ++ c :: rest)) length (fuel + 1) (bytes kept).length stringLast =
      groupLoop (bytes (kept ++ c :: rest)) length fuel ((bytes kept).length + width c.lead)
        (stringLast ++ [c.bytes]) := by
  have hgroup := groupOf_lead c.lead c.width_pos hc
  rw [if_neg hwide, ← ord_at_boundary kept c rest] at hgroup
  rw [groupLoop_round hmore hgroup, ord_at_boundary, substr_at_boundary]

/-- One of four bytes loses the last one to the next group. -/
theorem groupLoop_first (hmore : (bytes kept).length < length) (hwide : width c.lead = 4) :
    groupLoop (bytes (kept ++ c :: rest)) length (fuel + 1) (bytes kept).length stringLast =
      groupLoop (bytes (kept ++ c :: rest)) length fuel ((bytes kept).length + 3)
        (stringLast ++ [c.bytes.take 3]) := by
  have hgroup := groupOf_lead c.lead c.width_pos (Nat.le_of_eq hwide)
  rw [if_pos hwide, ← ord_at_boundary kept c rest] at hgroup
  have hlength := c.length_bytes
  have hread : substr (bytes (kept ++ c :: rest)) (bytes kept).length 3 = c.bytes.take 3 := by
    rw [substr, drop_boundary, bytes_cons, List.take_append_of_le_length (by omega)]
  rw [groupLoop_round hmore hgroup, hread]

theorem groupLoop_second (hmore : ((bytes kept).length + 3 : Nat) < length) (hwide : width c.lead = 4) :
    groupLoop (bytes (kept ++ c :: rest)) length (fuel + 1) ((bytes kept).length + 3) stringLast =
      groupLoop (bytes (kept ++ c :: rest)) length fuel ((bytes kept).length + width c.lead)
        (stringLast ++ [c.bytes.drop 3]) := by
  obtain ⟨b, hlast, htail⟩ := drop_three c hwide
  have hread : substr (bytes (kept ++ c :: rest)) ((bytes kept).length + 3) 1 = c.bytes.drop 3 := by
    rw [substr, drop_inside kept c rest (by omega), hlast]
    rfl
  have hone : groupOf (ord (substr (bytes (kept ++ c :: rest)) ((bytes kept).length + 3) 1)) = 1 := by
    rw [hread, hlast]
    exact groupOf_tail htail
  rw [groupLoop_round hmore hone, hread, hwide]

end

/-- From a boundary on, the loop collects what `$Length` still lacks. -/
theorem groupLoop_boundary {length : Int} (kept rest : List Character) (hfour : ∀ c ∈ rest, width c.lead ≤ 4)
    {fuel : Nat} (hfuel : (length - (bytes kept).length).toNat < fuel)
    (hlong : length ≤ (bytes (kept ++ rest)).length) (stringLast : List Octets) :
    groupLoop (bytes (kept ++ rest)) length fuel (bytes kept).length stringLast =
      some (stringLast ++ collected (length - (bytes kept).length).toNat rest) := by
  induction rest generalizing kept fuel stringLast with
  | nil =>
    obtain ⟨fuel, rfl⟩ := Nat.exists_eq_add_one.mpr (Nat.zero_lt_of_lt hfuel)
    rw [List.append_nil] at hlong
    rw [groupLoop_end hlong, collected, List.append_nil]
  | cons c rest ih =>
    obtain ⟨fuel, rfl⟩ := Nat.exists_eq_add_one.mpr (Nat.zero_lt_of_lt hfuel)
    have hpos := c.width_pos
    by_cases hmore : ((bytes kept).length : Int) < length
    · have hne : (length - (bytes kept).length).toNat ≠ 0 := by omega
      -- what the loop does once it is behind this character
      have hbehind : ∀ {fuel stringLast}, (length - (bytes kept).length).toNat - width c.lead < fuel →
          groupLoop (bytes (kept ++ c :: rest)) length fuel ((bytes kept).length + width c.lead) stringLast =
            some (stringLast ++ collected ((length - (bytes kept).length).toNat - width c.lead) rest) := by
        intro fuel stringLast hfuel
        have hleft : (length - (bytes (kept ++ [c])).length).toNat =
            (length - (bytes kept).length).toNat - width c.lead := by
          rw [boundary_concat]
          omega
        have hnext := ih (kept ++ [c]) (fun d hd => hfour d (List.mem_cons_of_mem c hd)) (hleft ▸ hfuel)
          (List.append_cons kept c rest ▸ hlong) stringLast
        rw [← List.append_cons, hleft, boundary_concat] at hnext
        exact hnext
      rw [collected, if_neg hne]
      by_cases hwide : width c.lead = 4
      · obtain ⟨fuel, rfl⟩ := Nat.exists_eq_add_one_of_ne_zero (n := fuel) (by omega)
        rw [if_pos hwide, groupLoop_first kept rest hmore hwide]
        by_cases hthree : (length - (bytes kept).length).toNat ≤ 3
        · rw [if_pos hthree, groupLoop_end (by omega)]
        · rw [if_neg hthree, groupLoop_second kept rest (by omega) hwide, hbehind (by omega), hwide,
            List.append_assoc, List.append_assoc]
          rfl
      · rw [if_neg hwide, groupLoop_whole kept rest hmore (hfour c List.mem_cons_self) hwide,
          hbehind (by omega), List.append_assoc]
        rfl
    · have hzero : (length - (bytes kept).length).toNat = 0 := by omega
      rw [groupLoop_end (Int.not_lt.mp hmore), hzero, collected, if_pos rfl, List.append_nil]

theorem collected_zero (cs : List Character) : collected 0 cs = [] := by
  cases cs with
  | nil => rfl
  | cons c cs => rw [collected, if_pos rfl]

theorem string_of_implode {stringLast : List Octets} {s : Octets} (h : implode stringLast = .string s) :
    stringLast.flatten = s := by
  rw [implode] at h
  split at h
  · cases h
  · exact Value.string.inj h

theorem implode_eq {stringLast : List Octets} (h : stringLast.flatten ≠ []) :
    implode stringLast = .string stringLast.flatten := by
  rw [implode, if_neg]
  intro hempty
  rw [hempty] at h
  exact h rfl

/-- The characters that lie before the limit are collected as they are. -/
theorem collected_append {n : Nat} {front : List Character} (back : List Character)
    (h : (bytes front).length < n) :
    (collected n (front ++ back)).flatten =
      bytes front ++ (collected (n - (bytes front).length) back).flatten := by
  induction front generalizing n with
  | nil => rfl
  | cons c front ih =>
    rw [bytes_cons, List.length_append, c.length_bytes] at h
    have hback := ih (n := n - width c.lead) (by omega)
    have hsub : n - width c.lead - (bytes front).length = n - (c.bytes ++ bytes front).length := by
      rw [List.length_append, c.length_bytes, Nat.sub_sub]
    rw [hsub] at hback
    rw [List.cons_append, collected, if_neg (by omega), bytes_cons, List.append_assoc, ← hback]
    by_cases hwide : width c.lead = 4
    · rw [if_pos hwide, if_neg (by omega), List.flatten_cons, List.flatten_cons, ← List.append_assoc,
        List.take_append_drop, hwide]
    · rw [if_neg hwide, List.flatten_cons]

/-- With the character that reaches the limit: it is broken if it has four bytes, and
    three of them are enough. -/
theorem collected_last {n : Nat} (front : List Character) (c : Character) (back : List Character)
    (hlow : (bytes front).length < n) (hhigh : n ≤ (bytes front).length + width c.lead) :
    (collected n (front ++ c :: back)).flatten =
      bytes front ++ if width c.lead = 4 ∧ n ≤ (bytes front).length + 3 then c.bytes.take 3 else c.bytes := by
  rw [collected_append (c :: back) hlow, collected, if_neg (by omega)]
  by_cases hwide : width c.lead = 4
  · rw [if_pos hwide]
    by_cases hthree : n - (bytes front).length ≤ 3
    · rw [if_pos hthree, if_pos ⟨hwide, by omega⟩, List.flatten_singleton]
    · have hnone : n - (bytes front).length - 4 = 0 := by omega
      rw [if_neg hthree, if_neg (by omega), hnone, collected_zero, List.flatten_cons, List.flatten_singleton,
        List.take_append_drop]
  · have hnone : n - (bytes front).length - width c.lead = 0 := by omega
    rw [if_neg hwide, if_neg (fun h => hwide h.1), hnone, collected_zero, List.flatten_singleton]

/-- A string that is longer than `$Length` comes out cut. -/
theorem groupSubStr_eq {cs : List Character} (hfour : ∀ c ∈ cs, width c.lead ≤ 4) {length : Int}
    (hlong : length < (bytes cs).length) :
    groupSubStr (bytes cs) length = some (implode (collected length.toNat cs)) := by
  have hfuel : (length - (bytes []).length).toNat < length.toNat + 1 := by
    rw [bytes_nil, List.length_nil]
    omega
  have hloop := groupLoop_boundary [] cs hfour hfuel (Int.le_of_lt hlong) []
  simp only [bytes_nil, List.length_nil, List.nil_append, Int.natCast_zero, Int.sub_zero] at hloop
  rw [groupSubStr, if_neg (Int.not_le.mpr hlong), hloop]
  rfl

/-- `groupSubStr` keeps whole characters exactly if `$Length` is positive and not within
    the first three bytes of a character of four. -/
theorem groupSubStr_keeps_iff (cs : List Character) (length : Int) (hfour : ∀ c ∈ cs, width c.lead ≤ 4)
    (hlong : length < (bytes cs).length) :
    KeepsCharacters cs length ↔
      0 < length ∧ ∀ kept c rest, cs = kept ++ c :: rest → width c.lead = 4 →
        ¬((bytes kept).length < length ∧ length ≤ (bytes kept).length + 3) := by
  rw [KeepsCharacters, groupSubStr_eq hfour hlong]
  constructor
  · intro hkeeps
    obtain ⟨p, hp, hresult, hge⟩ := hkeeps
    have hresult := Option.some.inj hresult
    refine ⟨?_, ?_⟩
    · by_contra hneg
      have hzero : length.toNat = 0 := by omega
      rw [hzero, collected_zero] at hresult
      cases hresult
    · intro kept c rest hcs hwide hinside
      have hlast := collected_last (n := length.toNat) kept c rest (by omega) (by omega)
      rw [if_pos ⟨hwide, by omega⟩, ← hcs] at hlast
      have hbytes : bytes p = bytes kept ++ c.bytes.take 3 := by
        rw [← hlast]
        exact (string_of_implode hresult).symm
      have hthree : (c.bytes.take 3).length = 3 := by
        rw [List.length_take, c.length_bytes, hwide]
        rfl
      have hlength := congrArg List.length hbytes
      rw [List.length_append, hthree] at hlength
      have hnot := boundary_not_inside (hcs ▸ hp) (by omega)
      omega
  · intro hcond
    obtain ⟨hpos, hwhole⟩ := hcond
    have hn : 0 < length.toNat := by omega
    have hin : length.toNat ≤ (bytes cs).length := by omega
    obtain ⟨kept, c, rest, hcs, hlow, hhigh⟩ := exists_character_at hn hin
    have hnot : ¬(width c.lead = 4 ∧ length.toNat ≤ (bytes kept).length + 3) := by
      intro hbroken
      exact hwhole kept c rest hcs hbroken.1 ⟨by omega, by omega⟩
    have hlast := collected_last kept c rest hlow hhigh
    rw [if_neg hnot, ← hcs] at hlast
    refine ⟨kept ++ [c], ?_, ?_, ?_⟩
    · rw [hcs, List.append_cons kept c rest]
      exact List.prefix_append _ _
    · have hstring : bytes kept ++ c.bytes = bytes (kept ++ [c]) := by
        rw [bytes_append, bytes_cons, bytes_nil, List.append_nil]
      rw [implode_eq, hlast, hstring]
      rw [hlast]
      exact List.append_ne_nil_of_right_ne_nil _ (List.cons_ne_nil _ _)
    · rw [boundary_concat]
      omega

/-- Of a character of two bytes and one of four, six bytes keep both. -/
theorem groupSubStr_keeps_iff_six :
    KeepsCharacters [⟨0xc3, [0xa9], rfl, by decide⟩, ⟨0xf0, [0x9f, 0x98, 0x80], rfl, by decide⟩,
        ⟨97, [], rfl, by decide⟩] 6 ↔
      (0 : Int) < 6 ∧ ∀ kept c rest,
        [⟨0xc3, [0xa9], rfl, by decide⟩, ⟨0xf0, [0x9f, 0x98, 0x80], rfl, by decide⟩,
          ⟨97, [], rfl, by decide⟩] = kept ++ c :: rest → width c.lead = 4 →
        ¬((bytes kept).length < (6 : Int) ∧ 6 ≤ ((bytes kept).length : Int) + 3) :=
  groupSubStr_keeps_iff _ 6 (by decide) (by decide)

/-- One byte asked for, three bytes of a character of four come. -/
theorem groupSubStr_breaks_four_bytes :
    ¬∀ (cs : List Character) (length : Int), (∀ c ∈ cs, width c.lead ≤ 4) →
      length < (bytes cs).length → KeepsCharacters cs length := by
  intro hall
  obtain ⟨p, hp, hresult, _⟩ := hall [⟨0xf0, [0x9f, 0x98, 0x80], rfl, by decide⟩, ⟨97, [], rfl, by decide⟩] 1
    (by decide) (by decide)
  have hvalue : groupSubStr [0xf0, 0x9f, 0x98, 0x80, 97] 1 = some (.string [0xf0, 0x9f, 0x98]) := by
    decide
  have hbytes : [0xf0, 0x9f, 0x98] = bytes p := Value.string.inj (Option.some.inj (hvalue.symm.trans hresult))
  have hthree : (bytes p).length = 3 := congrArg List.length hbytes.symm
  have hpast : (bytes []).length < (bytes p).length := hthree ▸ by decide
  have hnot : (bytes []).length + _ ≤ _ := boundary_not_inside hp hpast
  rw [hthree] at hnot
  exact absurd hnot (by decide)

end RubbishStore.Util.GroupSubStr
