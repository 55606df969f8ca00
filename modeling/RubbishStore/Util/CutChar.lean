import RubbishStore.Lib.Shortest
import RubbishStore.Lib.Utf8

/- `Util_GlobalFunc::cutChar`. The loop goes from character to character and cuts after
   the first one with which it has counted `2 * $lenth - 1` or more (`cutLoop_boundary`).
   It asks neither whether a character follows, nor does it count all of them: the last
   test has the mask 0x08 where a byte `10xxxxxx` would need 0x80, and so skips the ASCII
   characters that have this bit. `cutChar_cuts_iff` says when neither matters. -/
namespace RubbishStore.Util.CutChar
open RubbishStore.Lib RubbishStore.Lib.Shortest RubbishStore.Lib.Utf8

/-- What a round adds to `$i`, and to `$charlen` unless it ends with `continue`. -/
def advance (charAt : UInt8) : Nat × Option Nat :=
  if charAt &&& 0xfe = 0xfe then (7, some 2)
  else if charAt &&& 0xfc = 0xfc then (6, some 2)
  else if charAt &&& 0xf8 = 0xf8 then (5, some 2)
  else if charAt &&& 0xf0 = 0xf0 then (4, some 2)
  else if charAt &&& 0xe0 = 0xe0 then (3, some 2)
  else if charAt &&& 0xc0 = 0xc0 then (2, some 2)
  else if charAt &&& 0x08 = 0x08 then (1, none)
  else (1, some 1)

/-- `for($i=0;$i<$strlen;)`, for less than `fuel` rounds; `$i` and `$cut` at its end. -/
def cutLoop (str : Octets) (lenth : Int) : Nat → Nat → Int → Option (Nat × Bool)
  | 0, _, _ => none
  | fuel + 1, i, charlen =>
    match str[i]? with
    | none => some (i, false)
    | some charAt =>
      let i := i + (advance charAt).1
      match (advance charAt).2 with
      | none => cutLoop str lenth fuel i charlen
      | some wide =>
        let charlen := charlen + wide
        if charlen + 2 > lenth * 2 then some (i, true) else cutLoop str lenth fuel i charlen

/-- Every round goes on by a byte at least, so no more rounds are needed than there are
    bytes. -/
def cutChar (str : Octets) (lenth : Int) (dot : Octets := octets "...") : Option Octets := do
  let (i, cut) ← cutLoop str lenth (str.length + 1) 0 0
  return if cut then str.take i ++ dot else str

def display (c : Character) : Nat := if c.lead < 128 then 1 else 2

/-- What the loop counts. -/
def counted (c : Character) : Nat := ((advance c.lead).2).getD 0

/-- What is to come out: a cut string lacks a character, and what is kept of it is not
    too wide; nor is a string that is not cut. -/
def Cuts (cs : List Character) (lenth : Int) (dot : Octets) : Prop :=
  ∃ i cut, cutLoop (bytes cs) lenth ((bytes cs).length + 1) 0 0 = some (i, cut) ∧
    (cut = true → ∃ kept dropped, cs = kept ++ dropped ∧ dropped ≠ [] ∧
      cutChar (bytes cs) lenth dot = some (bytes kept ++ dot) ∧ weight display kept ≤ 2 * lenth) ∧
    (cut = false → cutChar (bytes cs) lenth dot = some (bytes cs) ∧ weight display cs ≤ 2 * lenth)

/-- The masks find the width of a character. -/
theorem advance_eq_width : ∀ b, 0 < width b → (advance b).1 = width b :=
  forall_byte (by decide +kernel)

/-- From a boundary on, and with less than `2 * $lenth - 1` counted, the loop takes the
    shortest beginning that brings it there. -/
theorem cutLoop_boundary {lenth charlen : Int} (kept rest : List Character) {fuel : Nat}
    (hfuel : rest.length < fuel) (hcharlen : charlen < 2 * lenth - 1) :
    cutLoop (bytes (kept ++ rest)) lenth fuel (bytes kept).length charlen =
      some ((bytes (kept ++ shortest counted (2 * lenth - 1 - charlen).toNat rest)).length,
        decide (2 * lenth - 1 ≤ charlen + weight counted rest)) := by
  induction rest generalizing kept charlen fuel with
  | nil =>
    obtain ⟨fuel, rfl⟩ := Nat.exists_eq_add_one.mpr (Nat.zero_lt_of_lt hfuel)
    have hcut : ¬2 * lenth - 1 ≤ charlen + (0 : Nat) := by omega
    rw [cutLoop, List.append_nil, List.getElem?_eq_none (Nat.le_refl _), shortest, List.append_nil,
      weight_nil, decide_eq_false hcut]
  | cons c rest ih =>
    obtain ⟨fuel, rfl⟩ := Nat.exists_eq_add_one.mpr (Nat.zero_lt_of_lt hfuel)
    have hne : (2 * lenth - 1 - charlen).toNat ≠ 0 := by omega
    rw [cutLoop, lead_at_boundary, shortest_cons counted hne, weight_cons, List.append_cons kept c rest,
      List.append_cons kept c (shortest _ _ _)]
    simp only [advance_eq_width _ c.width_pos, ← boundary_concat]
    have hfuel' : rest.length < fuel := Nat.lt_of_succ_lt_succ hfuel
    cases hwide : (advance c.lead).2 with
    | none =>
      have hzero : counted c = 0 := by rw [counted, hwide, Option.getD_none]
      simp only [hzero, Nat.sub_zero, Nat.zero_add]
      exact ih (kept ++ [c]) hfuel' hcharlen
    | some wide =>
      have hcount : counted c = wide := by rw [counted, hwide, Option.getD_some]
      simp only [hcount]
      by_cases hcut : charlen + wide + 2 > lenth * 2
      · have hstop : (2 * lenth - 1 - charlen).toNat - wide = 0 := by omega
        have htrue : 2 * lenth - 1 ≤ charlen + ((wide + weight counted rest : Nat) : Int) := by omega
        rw [if_pos hcut, hstop, shortest_zero, List.append_nil, decide_eq_true htrue]
      · have hleft : (2 * lenth - 1 - charlen).toNat - wide = (2 * lenth - 1 - (charlen + wide)).toNat := by
          omega
        rw [if_neg hcut, hleft, ih (kept ++ [c]) hfuel' (by omega), Int.natCast_add, Int.add_assoc]

section
variable (cs : List Character) {lenth : Int} (dot : Octets)

/-- What a string begins with when it is cut. -/
def beginning (lenth : Int) : List Character := shortest counted (2 * lenth - 1).toNat cs

theorem beginning_front (lenth : Int) : beginning cs lenth <+: cs := shortest_front _ _ _

/-- It reaches the limit if the string does. -/
theorem le_counted_beginning :
    2 * lenth - 1 ≤ weight counted (beginning cs lenth) ↔ 2 * lenth - 1 ≤ weight counted cs := by
  have hreach := le_weight_shortest_iff (f := counted) (n := (2 * lenth - 1).toNat) (l := cs)
  rw [Int.toNat_le, Int.toNat_le] at hreach
  exact hreach

theorem cutLoop_eq (h : 1 ≤ lenth) :
    cutLoop (bytes cs) lenth ((bytes cs).length + 1) 0 0 =
      some ((bytes (beginning cs lenth)).length, decide (2 * lenth - 1 ≤ weight counted cs)) := by
  have hstart : 0 < 2 * lenth - 1 := by omega
  have hloop := cutLoop_boundary [] cs (Nat.lt_succ_of_le (length_le_length_bytes cs)) hstart
  rw [Int.sub_zero, Int.zero_add] at hloop
  exact hloop

theorem cutChar_eq (h : 1 ≤ lenth) :
    cutChar (bytes cs) lenth dot =
      some (if 2 * lenth - 1 ≤ weight counted cs then bytes (beginning cs lenth) ++ dot else bytes cs) := by
  obtain ⟨dropped, hcs⟩ := beginning_front cs lenth
  have htake : (bytes cs).take (bytes (beginning cs lenth)).length = bytes (beginning cs lenth) :=
    calc (bytes cs).take (bytes (beginning cs lenth)).length
        = (bytes (beginning cs lenth ++ dropped)).take (bytes (beginning cs lenth)).length := by rw [hcs]
      _ = bytes (beginning cs lenth) := take_boundary _ dropped
  rw [cutChar, cutLoop_eq cs h]
  show some (if _ then _ else _) = _
  simp only [htake, decide_eq_true_eq]

/-- A string is cut as asked exactly if it is neither too wide nor counted as too wide, or
    if it is counted as too wide before its last character and no wider there than it may
    be. -/
theorem cutChar_cuts_iff (h : 1 ≤ lenth) :
    Cuts cs lenth dot ↔
      (weight display cs ≤ 2 * lenth ∧ weight counted cs < 2 * lenth - 1) ∨
      ∃ kept dropped, cs = kept ++ dropped ∧ dropped ≠ [] ∧
        2 * lenth - 1 ≤ weight counted kept ∧ weight display kept ≤ 2 * lenth := by
  constructor
  · intro hcuts
    obtain ⟨i, cut, hloop, hcut, hwhole⟩ := hcuts
    rw [cutLoop_eq cs h, Option.some.injEq, Prod.mk.injEq] at hloop
    obtain ⟨hi, hflag⟩ := hloop
    by_cases hover : 2 * lenth - 1 ≤ weight counted cs
    · obtain ⟨kept, dropped, hcs, hne, hresult, hwide⟩ := hcut (hflag ▸ decide_eq_true hover)
      rw [cutChar_eq cs dot h, if_pos hover, Option.some.injEq] at hresult
      have hkept : beginning cs lenth = kept :=
        eq_of_length_bytes_eq (beginning_front cs lenth) (hcs ▸ List.prefix_append kept dropped)
          (congrArg List.length (List.append_cancel_right hresult))
      have hreach := (le_counted_beginning cs).mpr hover
      rw [hkept] at hreach
      exact .inr ⟨kept, dropped, hcs, hne, hreach, hwide⟩
    · exact .inl ⟨(hwhole (hflag ▸ decide_eq_false hover)).2, Int.not_le.mp hover⟩
  · intro hcond
    refine ⟨_, _, cutLoop_eq cs h, ?_, ?_⟩
    · intro hcut
      have hover := of_decide_eq_true hcut
      obtain ⟨kept, dropped, hcs, hne, hreach, hwide⟩ := hcond.resolve_left fun hfew => by omega
      have hfront : kept <+: cs := hcs ▸ List.prefix_append kept dropped
      obtain ⟨more, hmore⟩ := shortest_least hfront (Int.toNat_le.mpr hreach)
      have hless := weight_le_of_front (f := display) (shortest_least hfront (Int.toNat_le.mpr hreach))
      refine ⟨beginning cs lenth, more ++ dropped, ?_, List.append_ne_nil_of_right_ne_nil more hne, ?_, ?_⟩
      · rw [← List.append_assoc, beginning, hmore, hcs]
      · rw [cutChar_eq cs dot h, if_pos hover]
      · exact Int.le_trans (Int.ofNat_le.mpr hless) hwide
    · intro hwhole
      have hunder := of_decide_eq_false hwhole
      refine ⟨by rw [cutChar_eq cs dot h, if_neg hunder], ?_⟩
      rcases hcond with ⟨hwide, _⟩ | ⟨kept, dropped, hcs, _, hreach, _⟩
      · exact hwide
      · have hmore : weight counted kept ≤ weight counted cs :=
          weight_le_of_front (hcs ▸ List.prefix_append kept dropped)
        omega

end

/-- Cut after its second character, a string of three is kept up to there. -/
theorem cutChar_cuts_iff_three :
    Cuts [⟨97, [], rfl, by decide⟩, ⟨0xc3, [0xa9], rfl, by decide⟩, ⟨97, [], rfl, by decide⟩] 2 [46] ↔
      (weight display [⟨97, [], rfl, by decide⟩, ⟨0xc3, [0xa9], rfl, by decide⟩, ⟨97, [], rfl, by decide⟩] ≤
          2 * (2 : Int) ∧
        weight counted [⟨97, [], rfl, by decide⟩, ⟨0xc3, [0xa9], rfl, by decide⟩, ⟨97, [], rfl, by decide⟩] <
          2 * (2 : Int) - 1) ∨
      ∃ kept dropped,
        [⟨97, [], rfl, by decide⟩, ⟨0xc3, [0xa9], rfl, by decide⟩, ⟨97, [], rfl, by decide⟩] =
          kept ++ dropped ∧ dropped ≠ [] ∧
        2 * (2 : Int) - 1 ≤ weight counted kept ∧ weight display kept ≤ 2 * (2 : Int) :=
  cutChar_cuts_iff _ [46] (by decide)

/-- The three dots go to the single `a` of which nothing is left out; three `h` are wider
    than asked for and are not cut. -/
theorem cutChar_a_and_hhh :
    ¬Cuts [⟨97, [], rfl, by decide⟩] 1 [46, 46, 46] ∧
      ¬Cuts [⟨104, [], rfl, by decide⟩, ⟨104, [], rfl, by decide⟩, ⟨104, [], rfl, by decide⟩] 1 [46, 46, 46] := by
  constructor
  · intro hcuts
    obtain ⟨i, cut, hloop, hcut, _⟩ := hcuts
    have hend : cutLoop [97] 1 2 0 0 = some (1, true) := by decide
    have hflag : cut = true := (Prod.ext_iff.mp (Option.some.inj (hloop.symm.trans hend))).2
    obtain ⟨kept, dropped, hcs, hne, hresult, _⟩ := hcut hflag
    have hchar : cutChar [97] 1 [46, 46, 46] = some [97, 46, 46, 46] := by decide
    rcases List.append_eq_singleton_iff.mp hcs.symm with ⟨hkept, _⟩ | ⟨_, hdropped⟩
    · have hsame := Option.some.inj (hchar.symm.trans hresult)
      rw [hkept] at hsame
      cases hsame
    · exact hne hdropped
  · intro hcuts
    obtain ⟨i, cut, hloop, _, hwhole⟩ := hcuts
    have hend : cutLoop [104, 104, 104] 1 4 0 0 = some (3, false) := by decide
    have hflag : cut = false := (Prod.ext_iff.mp (Option.some.inj (hloop.symm.trans hend))).2
    exact absurd (hwhole hflag).2 (by decide)

end RubbishStore.Util.CutChar
