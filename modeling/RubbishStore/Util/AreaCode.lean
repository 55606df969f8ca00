import RubbishStore.Lib.Decimal
import RubbishStore.Lib.PhpNumber
import RubbishStore.Lib.Text

/- Area codes of `Util_PublicMethods`: a city, an area in it and a block in that, four
   digits each. The encoder pads an id with zeros on the left, the decoder takes them away
   again, so that each of the two turns the other round on every group that is not zero
   throughout. Area codes are ASCII: a text has one character for each of its bytes. -/
namespace RubbishStore.Util.AreaCode
open RubbishStore.Lib

/-- An id as a caller passes it. -/
inductive TypeID where
  | int (i : Int)
  | string (s : Text)

namespace TypeID

def text : TypeID → Text
  | int i => PhpNumber.text i
  | string s => s

/-- `'' != $id`: compared with an integer, the empty string is the number 0. -/
def given : TypeID → Bool
  | int i => i ≠ 0
  | string s => s ≠ []

@[simp] theorem given_default : (string []).given = false := rfl

/-- `sprintf('%04s', $id)` -/
def padded (id : TypeID) : Text := id.text.leftpad 4 '0'

/-- A positive integer of at most four digits, as an integer or as its text. -/
def FourDigits (id : TypeID) : Prop :=
  ∃ n : ℕ+, (n : Nat) ≤ 9999 ∧ (id = int n ∨ id = string (Decimal.text n))

end TypeID

/-- The array that the decoder fills; a key that it does not set is `none`. -/
structure TypeIDs where
  cityTypeID : Option Text
  areaTypeID : Option Text
  blockTypeID : Option Text
  deriving DecidableEq

/-- `ltrim($s, 0)` -/
def ltrim (s : Text) : Text := s.dropWhile fun c => c = '0'

def substr (s : Text) (start length : Nat) : Text := (s.drop start).take length

def transferAreaCode2TypeID (areaCode : Text) : TypeIDs where
  cityTypeID := if areaCode.length > 3 then some (ltrim (substr areaCode 0 4)) else none
  areaTypeID := if areaCode.length > 7 then some (ltrim (substr areaCode 4 4)) else none
  blockTypeID := if areaCode.length > 11 then some (ltrim (substr areaCode 8 4)) else none

def transferTypeID2AreaCode (cityID : TypeID := .string []) (areaID : TypeID := .string [])
    (blockID : TypeID := .string []) : Text :=
  if cityID.given then
    cityID.padded ++
      if areaID.given then
        areaID.padded ++ if blockID.given then blockID.padded else []
      else []
  else []

/-- The decoded ids back to the encoder; what the decoder has not set stays at its default. -/
def reencode (ids : TypeIDs) : Text :=
  transferTypeID2AreaCode (.string (ids.cityTypeID.getD [])) (.string (ids.areaTypeID.getD []))
    (.string (ids.blockTypeID.getD []))

/-! One group. -/

theorem ltrim_begins {s : Text} (hs : Decimal.Begins s) : ltrim s = s := by
  cases s with
  | nil => rfl
  | cons c s =>
    have hc : ¬ c = '0' := fun h => hs (congrArg some h)
    exact List.dropWhile_cons_of_neg (by simpa using hc)

theorem ltrim_leftpad (n : Nat) {s : Text} (hs : Decimal.Begins s) :
    ltrim (s.leftpad n '0') = s := by
  have hzeros : ∀ c ∈ List.replicate (n - s.length) '0', decide (c = '0') = true := by
    intro c hc
    exact decide_eq_true (List.eq_of_mem_replicate hc)
  rw [ltrim, List.leftpad, List.dropWhile_append_of_pos hzeros]
  exact ltrim_begins hs

/-- Padding puts back the zeros that trimming takes away. -/
theorem leftpad_ltrim (s : Text) : (ltrim s).leftpad s.length '0' = s := by
  have hsplit : s.takeWhile (fun c => c = '0') ++ ltrim s = s := List.takeWhile_append_dropWhile
  have hzeros : s.takeWhile (fun c => c = '0') =
      List.replicate (s.takeWhile fun c => c = '0').length '0' := by
    apply List.eq_replicate_of_mem
    intro c hc
    exact of_decide_eq_true (List.mem_takeWhile_imp (p := fun c => decide (c = '0')) hc)
  have hlength : s.length - (ltrim s).length = (s.takeWhile fun c => c = '0').length := by
    have hsum := congrArg List.length hsplit
    rw [List.length_append] at hsum
    omega
  rw [List.leftpad, hlength, ← hzeros, hsplit]

theorem ltrim_ne_nil {s : Text} (hs : s ≠ List.replicate s.length '0') : ltrim s ≠ [] := by
  intro hnil
  apply hs
  have hpad := leftpad_ltrim s
  rw [hnil, List.leftpad, List.length_nil, Nat.sub_zero, List.append_nil] at hpad
  exact hpad.symm

namespace TypeID

theorem FourDigits.text_eq {id : TypeID} (h : id.FourDigits) :
    ∃ n : ℕ+, (n : Nat) ≤ 9999 ∧ id.text = Decimal.text n := by
  obtain ⟨n, hn, rfl | rfl⟩ := h
  · exact ⟨n, hn, by simp [text, PhpNumber.text, Decimal.text]⟩
  · exact ⟨n, hn, rfl⟩

theorem FourDigits.given_eq {id : TypeID} (h : id.FourDigits) : id.given = true := by
  obtain ⟨n, hn, rfl | rfl⟩ := h
  · simp [given]
  · simp [given, Decimal.text_ne_nil]

theorem FourDigits.length_padded {id : TypeID} (h : id.FourDigits) : id.padded.length = 4 := by
  obtain ⟨n, hn, htext⟩ := h.text_eq
  have hlt : (n : Nat) < 10 ^ 4 := Nat.lt_succ_of_le hn
  have hlength : (Decimal.text n).length ≤ 4 :=
    (Nat.length_toDigits_le_iff (by decide) (by decide)).mpr hlt
  rw [padded, List.length_leftpad, htext]
  exact Nat.max_eq_left hlength

theorem FourDigits.ltrim_padded {id : TypeID} (h : id.FourDigits) : ltrim id.padded = id.text := by
  obtain ⟨n, hn, htext⟩ := h.text_eq
  rw [padded, htext]
  exact ltrim_leftpad 4 (Decimal.text_begins n)

end TypeID

/-! Groups behind each other. -/

/-- The decoder on whole groups: it reads the first three. -/
theorem transferAreaCode2TypeID_groups (g g' g'' : Text) (hg : g.length = 4) (hg' : g'.length = 4)
    (hg'' : g''.length = 4) :
    transferAreaCode2TypeID g = ⟨some (ltrim g), none, none⟩ ∧
      transferAreaCode2TypeID (g ++ g') = ⟨some (ltrim g), some (ltrim g'), none⟩ ∧
      transferAreaCode2TypeID (g ++ (g' ++ g'')) =
        ⟨some (ltrim g), some (ltrim g'), some (ltrim g'')⟩ := by
  have hcut : ∀ (a b c : Text), b.length = 4 → substr (a ++ (b ++ c)) a.length 4 = b := by
    intro a b c hb
    rw [substr, List.drop_left, ← hb, List.take_left]
  have hone := hcut [] g [] hg
  have htwo := hcut [] g g' hg
  have hthree := hcut [] g (g' ++ g'') hg
  have htwo' := hcut g g' [] hg'
  have hthree' := hcut g g' g'' hg'
  have hthree'' := hcut (g ++ g') g'' [] hg''
  simp only [List.append_nil, List.nil_append, List.length_nil, List.length_append, hg, hg',
    List.append_assoc] at hone htwo hthree htwo' hthree' hthree''
  refine ⟨?_, ?_, ?_⟩
  · simp [transferAreaCode2TypeID, hg, hone]
  · simp [transferAreaCode2TypeID, hg, hg', htwo, htwo']
  · simp [transferAreaCode2TypeID, hg, hg', hg'', hthree, hthree', hthree'']

theorem padded_ltrim {g : Text} (hg : g.length = 4) : (TypeID.string (ltrim g)).padded = g := by
  have hpad := leftpad_ltrim g
  rw [hg] at hpad
  exact hpad

theorem given_ltrim {g : Text} (hg : g.length = 4) (hzero : g ≠ List.replicate 4 '0') :
    (TypeID.string (ltrim g)).given = true := by
  have hne : ltrim g ≠ [] := ltrim_ne_nil (by rwa [hg])
  simpa [TypeID.given] using hne

/-- The encoder on what the decoder makes of groups that are not zero throughout. -/
theorem reencode_groups (g g' g'' : Text) (hg : g.length = 4) (hg' : g'.length = 4) (hg'' : g''.length = 4)
    (hzero : g ≠ List.replicate 4 '0') :
    reencode ⟨some (ltrim g), none, none⟩ = g ∧
      (g' ≠ List.replicate 4 '0' → reencode ⟨some (ltrim g), some (ltrim g'), none⟩ = g ++ g' ∧
        (g'' ≠ List.replicate 4 '0' →
          reencode ⟨some (ltrim g), some (ltrim g'), some (ltrim g'')⟩ = g ++ (g' ++ g''))) := by
  refine ⟨?_, fun hzero' => ⟨?_, fun hzero'' => ?_⟩⟩
  · simp [reencode, transferTypeID2AreaCode, given_ltrim hg hzero, padded_ltrim hg]
  · simp [reencode, transferTypeID2AreaCode, given_ltrim hg hzero, given_ltrim hg' hzero',
      padded_ltrim hg, padded_ltrim hg']
  · simp [reencode, transferTypeID2AreaCode, given_ltrim hg hzero, given_ltrim hg' hzero',
      given_ltrim hg'' hzero'', padded_ltrim hg, padded_ltrim hg', padded_ltrim hg'']

theorem decode_encode_city {city : TypeID} (hc : city.FourDigits) :
    transferAreaCode2TypeID (transferTypeID2AreaCode city) = ⟨some city.text, none, none⟩ := by
  have hcode : transferTypeID2AreaCode city = city.padded := by
    simp [transferTypeID2AreaCode, hc.given_eq]
  have hread := (transferAreaCode2TypeID_groups _ _ _ hc.length_padded hc.length_padded hc.length_padded).1
  rw [hcode, hread, hc.ltrim_padded]

theorem decode_encode_area {city area : TypeID} (hc : city.FourDigits) (ha : area.FourDigits) :
    transferAreaCode2TypeID (transferTypeID2AreaCode city area) =
      ⟨some city.text, some area.text, none⟩ := by
  have hcode : transferTypeID2AreaCode city area = city.padded ++ area.padded := by
    simp [transferTypeID2AreaCode, hc.given_eq, ha.given_eq]
  have hread := (transferAreaCode2TypeID_groups _ _ _ hc.length_padded ha.length_padded ha.length_padded).2.1
  rw [hcode, hread, hc.ltrim_padded, ha.ltrim_padded]

theorem decode_encode_block {city area block : TypeID} (hc : city.FourDigits) (ha : area.FourDigits)
    (hb : block.FourDigits) :
    transferAreaCode2TypeID (transferTypeID2AreaCode city area block) =
      ⟨some city.text, some area.text, some block.text⟩ := by
  have hcode : transferTypeID2AreaCode city area block = city.padded ++ (area.padded ++ block.padded) := by
    simp [transferTypeID2AreaCode, hc.given_eq, ha.given_eq, hb.given_eq]
  have hread := (transferAreaCode2TypeID_groups _ _ _ hc.length_padded ha.length_padded hb.length_padded).2.2
  rw [hcode, hread, hc.ltrim_padded, ha.ltrim_padded, hb.ltrim_padded]

/-- No group of the code, counted from its front, is zero throughout. -/
def NoZeroGroup (areaCode : Text) : Prop :=
  ∀ k, 4 * k < areaCode.length → substr areaCode (4 * k) 4 ≠ List.replicate 4 '0'

theorem encode_decode {areaCode : Text} (hzero : NoZeroGroup areaCode)
    (hlength : areaCode.length = 4 ∨ areaCode.length = 8 ∨ areaCode.length = 12) :
    reencode (transferAreaCode2TypeID areaCode) = areaCode := by
  let g := areaCode.take 4
  let g' := (areaCode.drop 4).take 4
  let g'' := (areaCode.drop 8).take 4
  have hg : g.length = 4 := by simp [g]; omega
  have hfirst : g ≠ List.replicate 4 '0' := hzero 0 (by omega)
  obtain hlength | hlength | hlength := hlength
  · have hcode : areaCode = g := (List.take_of_length_le (by omega)).symm
    rw [hcode, (transferAreaCode2TypeID_groups g g g hg hg hg).1]
    exact (reencode_groups g g g hg hg hg hfirst).1
  · have hg' : g'.length = 4 := by simp [g']; omega
    have hcode : areaCode = g ++ g' := by
      have hrest : g' = areaCode.drop 4 := List.take_of_length_le (by simp; omega)
      rw [hrest, List.take_append_drop]
    rw [hcode, (transferAreaCode2TypeID_groups g g' g' hg hg' hg').2.1]
    exact ((reencode_groups g g' g' hg hg' hg' hfirst).2 (hzero 1 (by omega))).1
  · have hg' : g'.length = 4 := by simp [g']; omega
    have hg'' : g''.length = 4 := by simp [g'']; omega
    have hcode : areaCode = g ++ (g' ++ g'') := by
      have hlast : g'' = (areaCode.drop 4).drop 4 := by
        rw [List.drop_drop]
        exact List.take_of_length_le (by simp; omega)
      rw [hlast, List.take_append_drop, List.take_append_drop]
    rw [hcode, (transferAreaCode2TypeID_groups g g' g'' hg hg' hg'').2.2]
    exact ((reencode_groups g g' g'' hg hg' hg'' hfirst).2 (hzero 1 (by omega))).2 (hzero 2 (by omega))

/-- **Each of the two turns the other round**: the ids come back, for a city alone, with an
    area, and with an area and a block; and so does a code of one, two or three groups. -/
theorem areaCode_inverse :
    (∀ city : TypeID, city.FourDigits →
      transferAreaCode2TypeID (transferTypeID2AreaCode city) = ⟨some city.text, none, none⟩) ∧
    (∀ city area : TypeID, city.FourDigits → area.FourDigits →
      transferAreaCode2TypeID (transferTypeID2AreaCode city area) =
        ⟨some city.text, some area.text, none⟩) ∧
    (∀ city area block : TypeID, city.FourDigits → area.FourDigits → block.FourDigits →
      transferAreaCode2TypeID (transferTypeID2AreaCode city area block) =
        ⟨some city.text, some area.text, some block.text⟩) ∧
    ∀ areaCode : Text, (∀ c ∈ areaCode, c.isDigit) →
      areaCode.length = 4 ∨ areaCode.length = 8 ∨ areaCode.length = 12 → NoZeroGroup areaCode →
      reencode (transferAreaCode2TypeID areaCode) = areaCode :=
  ⟨fun _ hc => decode_encode_city hc, fun _ _ hc ha => decode_encode_area hc ha,
    fun _ _ _ hc ha hb => decode_encode_block hc ha hb,
    fun _ _ hlength hzero => encode_decode hzero hlength⟩

theorem areaCode_inverse_kunshan :
    transferAreaCode2TypeID (transferTypeID2AreaCode (.int 19)) = ⟨some (chars "19"), none, none⟩ ∧
    transferAreaCode2TypeID (transferTypeID2AreaCode (.int 19) (.string (chars "2109"))) =
      ⟨some (chars "19"), some (chars "2109"), none⟩ ∧
    transferAreaCode2TypeID (transferTypeID2AreaCode (.int 19) (.string (chars "2109")) (.int 300)) =
      ⟨some (chars "19"), some (chars "2109"), some (chars "300")⟩ ∧
    reencode (transferAreaCode2TypeID (chars "001921090300")) = chars "001921090300" := by
  have hcity : (TypeID.int 19).FourDigits := ⟨19, by decide, .inl rfl⟩
  have harea : (TypeID.string (chars "2109")).FourDigits :=
    ⟨2109, by decide, .inr (congrArg TypeID.string (by rw [chars]; decide))⟩
  have hblock : (TypeID.int 300).FourDigits := ⟨300, by decide, .inl rfl⟩
  have hcity' : (TypeID.int 19).text = chars "19" := by rw [chars]; decide
  have hblock' : (TypeID.int 300).text = chars "300" := by rw [chars]; decide
  obtain ⟨hone, htwo, hthree, hcode⟩ := areaCode_inverse
  refine ⟨?_, ?_, ?_, hcode _ ?_ ?_ ?_⟩
  · rw [hone _ hcity, hcity']
  · rw [htwo _ _ hcity harea, hcity', TypeID.text]
  · rw [hthree _ _ _ hcity harea hblock, hcity', hblock', TypeID.text]
  · have hall : (chars "001921090300").all Char.isDigit = true := by rw [chars]; decide
    exact List.all_eq_true.mp hall
  · rw [chars]; decide
  · intro k hk
    have hlt : k < 3 := by simp [chars] at hk; omega
    obtain rfl | rfl | rfl : k = 0 ∨ k = 1 ∨ k = 2 := by omega
    all_goals rw [chars]; decide

end RubbishStore.Util.AreaCode
