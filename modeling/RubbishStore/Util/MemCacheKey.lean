import RubbishStore.Lib.Decimal
import RubbishStore.Lib.Text

/- Key builders of `Util_MemCacheKey` that join several ids. Ids are positive
   numbers, which PHP joins to a text in decimal. Five builders put nothing between
   the ids, so that digits may move from one id to the next without a change of the
   key; `getRegionOrBlockQa` has a separator but leaves the region out when there is
   a block, and writes both in the same place. The builders with `_` between all their
   arguments have different keys for different ones, also where a list is joined with
   it: the arguments behind the list are counted from the end
   (`separated_keys_injective`). -/
namespace RubbishStore.Util
open RubbishStore.Lib RubbishStore.Lib.Decimal

/-- The constants of `Const_MemCache` that the builders start from. -/
structure ConstMemCache where
  keyCommTotalPropRows : List Char
  keyCommSubscribedUsers : List Char
  keyCommunityGetHot : List Char
  keyCityType : List Char
  keyHomeSelectProperty : List Char
  keyRegionOrBlockQa : List Char

/-- The constants of the builders with a separator between all arguments. -/
structure ConstMemCacheSeparated where
  keySimilarPropSale : List Char
  keyCommunityFeeds : List Char
  keyCommunityMasterstoreProperty : List Char

namespace MemCacheKey
variable (const : ConstMemCache)

def getCommTotalPropRows (commid cityid tradetype : ℕ+) : List Char :=
  const.keyCommTotalPropRows ++ text commid ++ text cityid ++ text tradetype

def getCommunitySubscribedUser (commid limit : ℕ+) : List Char :=
  const.keyCommSubscribedUsers ++ text commid ++ text limit

def getCommHot (cityid w : ℕ+) : List Char :=
  const.keyCommunityGetHot ++ text cityid ++ text w

def getCityType (cityId load : ℕ+) : List Char :=
  const.keyCityType ++ text cityId ++ text load

def getHomeSelectProperty (cityid type : ℕ+) : List Char :=
  const.keyHomeSelectProperty ++ ['_'] ++ text cityid ++ text type

/-- An id that may be left out, as a text: '' is the default. -/
def optional : Option ℕ+ → List Char
  | none => []
  | some id => text id

/-- A block that is '' or '0' is empty. -/
def getRegionOrBlockQa (cityId regionId : ℕ+) (blockId : List Char := []) : List Char :=
  if ¬ (blockId = [] ∨ blockId = ['0']) then
    const.keyRegionOrBlockQa ++ text cityId ++ ['_'] ++ blockId
  else
    const.keyRegionOrBlockQa ++ text cityId ++ ['_'] ++ text regionId

/-- A key of two ids and a constant front part. -/
theorem pair_key_ne_iff (front : List Char) (p q : ℕ+ × ℕ+) :
    (p ≠ q → front ++ text p.1 ++ text p.2 ≠ front ++ text q.1 ++ text q.2) ↔
      ¬ Moved p q ∧ ¬ Moved q p := by
  have hkey : front ++ text p.1 ++ text p.2 = front ++ text q.1 ++ text q.2 ↔
      p = q ∨ Moved p q ∨ Moved q p := by
    rw [List.append_assoc, List.append_assoc, List.append_cancel_left_eq, text_append_eq_iff]
  rw [Ne, Ne, hkey]
  refine ⟨fun h => ?_, fun h hne hsame => ?_⟩
  · have hne : Moved p q ∨ Moved q p → p ≠ q := by
      rintro hmoved rfl
      exact hmoved.elim (not_moved_self p) (not_moved_self p)
    refine ⟨fun hmoved => ?_, fun hmoved => ?_⟩
    · exact h (hne (.inl hmoved)) (.inr (.inl hmoved))
    · exact h (hne (.inr hmoved)) (.inr (.inr hmoved))
  · obtain hpq | hmoved | hmoved := hsame
    · exact hne hpq
    · exact h.1 hmoved
    · exact h.2 hmoved

theorem getCommTotalPropRows_eq_iff (t t' : ℕ+ × ℕ+ × ℕ+) :
    getCommTotalPropRows const t.1 t.2.1 t.2.2 = getCommTotalPropRows const t'.1 t'.2.1 t'.2.2 ↔
      Recut [t.1, t.2.1, t.2.2] [t'.1, t'.2.1, t'.2.2] := by
  have hcut := flatMap_text_eq_iff (l := [t.1, t.2.1, t.2.2]) (k := [t'.1, t'.2.1, t'.2.2]) rfl
  rw [← hcut]
  simp [getCommTotalPropRows]

/-- The id behind the separator: the block, or the region of a tuple without one. -/
theorem getRegionOrBlockQa_eq (cityId regionId : ℕ+) (blockId : Option ℕ+) :
    getRegionOrBlockQa const cityId regionId (optional blockId) =
      const.keyRegionOrBlockQa ++ (text cityId ++ '_' :: text (blockId.getD regionId)) := by
  cases blockId with
  | none => simp [getRegionOrBlockQa, optional]
  | some id =>
    have hzero : text id ≠ ['0'] := by
      intro h
      have hbegins := text_begins id
      simp [Begins, h] at hbegins
    simp [getRegionOrBlockQa, optional, text_ne_nil, hzero]

/-- No digit is a separator, so the texts on its two sides can be told apart. -/
theorem separated_eq_iff (c r c' r' : ℕ+) :
    text c ++ '_' :: text r = text c' ++ '_' :: text r' ↔ c = c' ∧ r = r' := by
  have hcut : ∀ n : ℕ+, ∀ s : List Char,
      (text n ++ '_' :: s).takeWhile (fun a => a.isDigit) = text n := by
    intro n s
    rw [List.takeWhile_append_of_pos (fun a ha => isDigit_of_mem_text ha),
      List.takeWhile_cons_of_neg (by decide), List.append_nil]
  refine ⟨fun h => ?_, ?_⟩
  · -- what stands in front of the separator is the same
    have hfront := congrArg (List.takeWhile fun a => a.isDigit) h
    rw [hcut, hcut] at hfront
    rw [hfront, List.append_cancel_left_eq, List.cons.injEq] at h
    exact ⟨text_injective hfront, text_injective h.2⟩
  · rintro ⟨rfl, rfl⟩
    rfl

/-- When two different tuples of ids have different keys. Of the five builders
    without a separator: no digits can be moved between neighbouring ids that turn one
    tuple into the other. Of `getRegionOrBlockQa`: the cities differ, or the blocks do,
    where the region of a tuple stands for a block that is left out. -/
theorem keys_ne_iff :
    (∀ t t' : ℕ+ × ℕ+ × ℕ+,
      (t ≠ t' → getCommTotalPropRows const t.1 t.2.1 t.2.2 ≠
        getCommTotalPropRows const t'.1 t'.2.1 t'.2.2) ↔
      (Recut [t.1, t.2.1, t.2.2] [t'.1, t'.2.1, t'.2.2] → t = t')) ∧
    (∀ p q : ℕ+ × ℕ+,
      ((p ≠ q → getCommunitySubscribedUser const p.1 p.2 ≠ getCommunitySubscribedUser const q.1 q.2) ↔
        ¬ Moved p q ∧ ¬ Moved q p) ∧
      ((p ≠ q → getCommHot const p.1 p.2 ≠ getCommHot const q.1 q.2) ↔
        ¬ Moved p q ∧ ¬ Moved q p) ∧
      ((p ≠ q → getCityType const p.1 p.2 ≠ getCityType const q.1 q.2) ↔
        ¬ Moved p q ∧ ¬ Moved q p) ∧
      ((p ≠ q → getHomeSelectProperty const p.1 p.2 ≠ getHomeSelectProperty const q.1 q.2) ↔
        ¬ Moved p q ∧ ¬ Moved q p)) ∧
    (∀ t t' : ℕ+ × ℕ+ × Option ℕ+,
      (t ≠ t' → getRegionOrBlockQa const t.1 t.2.1 (optional t.2.2) ≠
        getRegionOrBlockQa const t'.1 t'.2.1 (optional t'.2.2)) ↔
      (t.1 = t'.1 → t.2.2.getD t.2.1 = t'.2.2.getD t'.2.1 → t = t')) := by
  refine ⟨fun t t' => ?_, fun p q => ⟨?_, ?_, ?_, ?_⟩, fun t t' => ?_⟩
  · rw [Ne, Ne, not_imp_not, getCommTotalPropRows_eq_iff]
  · exact pair_key_ne_iff const.keyCommSubscribedUsers p q
  · exact pair_key_ne_iff const.keyCommunityGetHot p q
  · exact pair_key_ne_iff const.keyCityType p q
  · exact pair_key_ne_iff (const.keyHomeSelectProperty ++ ['_']) p q
  · rw [Ne, Ne, not_imp_not, getRegionOrBlockQa_eq, getRegionOrBlockQa_eq,
      List.append_cancel_left_eq, separated_eq_iff, and_imp]

/-- The cities 1 and 12 share their hot communities, and two regions of a city their
    questions about one block. -/
theorem different_ids_one_key :
    let const : ConstMemCache :=
      ⟨['r', '_'], ['s', '_'], ['h', '_'], ['c', '_'], ['p', '_'], ['q', '_']⟩
    getCommTotalPropRows const 1 23 4 = getCommTotalPropRows const 12 3 4 ∧
    getCommunitySubscribedUser const 1 23 = getCommunitySubscribedUser const 12 3 ∧
    getCommHot const 1 23 = getCommHot const 12 3 ∧
    getCityType const 1 23 = getCityType const 12 3 ∧
    getHomeSelectProperty const 1 23 = getHomeSelectProperty const 12 3 ∧
    getRegionOrBlockQa const 11 3 (optional (some 7)) =
      getRegionOrBlockQa const 11 4 (optional (some 7)) ∧
    getRegionOrBlockQa const 11 3 (optional (some 7)) = getRegionOrBlockQa const 11 7 := by
  decide

/-! A separator between all arguments. -/

/-- A number in decimal as it is given: it may have a sign, a point and zeros in front. -/
structure Numeral where
  text : List Char
  ne_nil : text ≠ []
  written : ∀ c ∈ text, c.isDigit = true ∨ c = '-' ∨ c = '.'

def Numeral.ofNat (n : Nat) : Numeral where
  text := Nat.toDigits 10 n
  ne_nil := Nat.toDigits_ne_nil
  written := fun _ hc => .inl (Nat.isDigit_of_mem_toDigits (by decide) (by decide) hc)

section
variable (const : ConstMemCacheSeparated)

def getSimilarPropSale (areaCode percentCost propPriceInt propId : Numeral) : List Char :=
  const.keySimilarPropSale ++ areaCode.text ++ ['_'] ++ percentCost.text ++ ['_'] ++
    propPriceInt.text ++ ['_'] ++ propId.text

def getCommunityHomeFeeds (cityid areacode lastid older pagesize replylimit actionid : Numeral) : List Char :=
  const.keyCommunityFeeds ++ cityid.text ++ ['_'] ++ areacode.text ++ ['_'] ++ lastid.text ++ ['_'] ++
    older.text ++ ['_'] ++ pagesize.text ++ ['_'] ++ replylimit.text ++ ['_'] ++ actionid.text

def getMasterStoreNewProperty (groupId : List Numeral) (pageSize tradeType communityID : Numeral) : List Char :=
  const.keyCommunityMasterstoreProperty ++ ['_'].intercalate (groupId.map Numeral.text) ++ ['_'] ++
    pageSize.text ++ ['_'] ++ tradeType.text ++ ['_'] ++ communityID.text

end

theorem Numeral.text_injective {m n : Numeral} (h : m.text = n.text) : m = n := by
  cases m
  cases n
  congr

theorem Numeral.separator_not_mem (n : Numeral) : '_' ∉ n.text := by
  intro hmem
  rcases n.written _ hmem with h | h | h
  · exact absurd h (by decide)
  · exact absurd h (by decide)
  · exact absurd h (by decide)

theorem map_text_injective {ids ids' : List Numeral} (h : ids.map Numeral.text = ids'.map Numeral.text) :
    ids = ids' := (List.map_injective_iff.mpr fun _ _ => Numeral.text_injective) h

/-- As many numbers as are joined come back. -/
theorem numerals_injective {ids ids' : List Numeral} (hne : ids ≠ []) (hne' : ids' ≠ [])
    (hkey : ['_'].intercalate (ids.map Numeral.text) = ['_'].intercalate (ids'.map Numeral.text)) : ids = ids' := by
  have hseparator : ∀ ids : List Numeral, ∀ s ∈ ids.map Numeral.text, '_' ∉ s := by
    intro ids s hs
    obtain ⟨n, -, rfl⟩ := List.mem_map.mp hs
    exact n.separator_not_mem
  exact map_text_injective (intercalate_injective (mt List.map_eq_nil_iff.mp hne)
    (mt List.map_eq_nil_iff.mp hne') (hseparator ids) (hseparator ids') hkey)

/-- What the ids of a list are joined from: an empty list leaves an empty text in front. -/
def groupFields : List Numeral → List (List Char)
  | [] => [[]]
  | ids => ids.map Numeral.text

theorem groupFields_ne_nil (ids : List Numeral) : groupFields ids ≠ [] := by
  cases ids with
  | nil => exact List.cons_ne_nil _ _
  | cons n ids => exact List.cons_ne_nil _ _

theorem separator_not_mem_groupFields {ids : List Numeral} {s : List Char} (hs : s ∈ groupFields ids) : '_' ∉ s := by
  cases ids with
  | nil =>
    rw [groupFields, List.mem_singleton] at hs
    rw [hs]
    exact List.not_mem_nil
  | cons n ids =>
    obtain ⟨m, -, rfl⟩ := List.mem_map.mp hs
    exact m.separator_not_mem

/-- The empty list is not taken for another, because no number is an empty text. -/
theorem groupFields_injective {ids ids' : List Numeral} (h : groupFields ids = groupFields ids') : ids = ids' := by
  cases ids with
  | nil =>
    cases ids' with
    | nil => rfl
    | cons n ids' => exact absurd (List.cons.inj h).1.symm n.ne_nil
  | cons m ids =>
    cases ids' with
    | nil => exact absurd (List.cons.inj h).1 m.ne_nil
    | cons n ids' => exact map_text_injective h

theorem intercalate_append_cons {fields : List (List Char)} (hne : fields ≠ []) (s : List Char)
    (rest : List (List Char)) :
    ['_'].intercalate (fields ++ s :: rest) = ['_'].intercalate fields ++ ['_'] ++ ['_'].intercalate (s :: rest) := by
  induction fields with
  | nil => exact absurd rfl hne
  | cons t fields ih =>
    cases fields with
    | nil => simp [List.intercalate_cons_cons]
    | cons u fields => simpa [List.intercalate_cons_cons] using ih (List.cons_ne_nil _ _)

theorem getMasterStoreNewProperty_eq (const : ConstMemCacheSeparated) (groupId : List Numeral)
    (pageSize tradeType communityID : Numeral) :
    getMasterStoreNewProperty const groupId pageSize tradeType communityID =
      const.keyCommunityMasterstoreProperty ++
        ['_'].intercalate (groupFields groupId ++ [pageSize, tradeType, communityID].map Numeral.text) := by
  have hfront : ['_'].intercalate (groupFields groupId) = ['_'].intercalate (groupId.map Numeral.text) := by
    cases groupId with
    | nil => rfl
    | cons n groupId => rfl
  rw [List.map_cons, intercalate_append_cons (groupFields_ne_nil groupId), hfront]
  simp [getMasterStoreNewProperty, List.intercalate_cons_cons]

theorem getMasterStoreNewProperty_injective (const : ConstMemCacheSeparated)
    {t t' : List Numeral × Numeral × Numeral × Numeral}
    (hkey : getMasterStoreNewProperty const t.1 t.2.1 t.2.2.1 t.2.2.2 =
      getMasterStoreNewProperty const t'.1 t'.2.1 t'.2.2.1 t'.2.2.2) : t = t' := by
  obtain ⟨groupId, a, b, c⟩ := t
  obtain ⟨groupId', a', b', c'⟩ := t'
  have hseparator : ∀ (groupId ids : List Numeral), ∀ s ∈ groupFields groupId ++ ids.map Numeral.text, '_' ∉ s := by
    intro groupId ids s hs
    rcases List.mem_append.mp hs with hs | hs
    · exact separator_not_mem_groupFields hs
    · obtain ⟨n, -, rfl⟩ := List.mem_map.mp hs
      exact n.separator_not_mem
  rw [getMasterStoreNewProperty_eq, getMasterStoreNewProperty_eq, List.append_cancel_left_eq] at hkey
  have hfields := intercalate_injective (List.append_ne_nil_of_left_ne_nil (groupFields_ne_nil groupId) _)
    (List.append_ne_nil_of_left_ne_nil (groupFields_ne_nil groupId') _) (hseparator _ _) (hseparator _ _) hkey
  -- the last three are the fixed arguments, whatever is in front of them
  obtain ⟨hgroup, hlast⟩ := List.append_inj' hfields rfl
  have hids := map_text_injective hlast
  simp only [List.cons.injEq, and_true] at hids
  obtain ⟨rfl, rfl, rfl⟩ := hids
  rw [groupFields_injective hgroup]

theorem getCommunityHomeFeeds_injective (const : ConstMemCacheSeparated)
    {t t' : Numeral × Numeral × Numeral × Numeral × Numeral × Numeral × Numeral}
    (hkey : getCommunityHomeFeeds const t.1 t.2.1 t.2.2.1 t.2.2.2.1 t.2.2.2.2.1 t.2.2.2.2.2.1 t.2.2.2.2.2.2 =
      getCommunityHomeFeeds const t'.1 t'.2.1 t'.2.2.1 t'.2.2.2.1 t'.2.2.2.2.1 t'.2.2.2.2.2.1 t'.2.2.2.2.2.2) :
    t = t' := by
  obtain ⟨a, b, c, d, e, f, g⟩ := t
  obtain ⟨a', b', c', d', e', f', g'⟩ := t'
  have hids : [a, b, c, d, e, f, g] = [a', b', c', d', e', f', g'] := by
    refine numerals_injective (List.cons_ne_nil _ _) (List.cons_ne_nil _ _) ?_
    simpa [getCommunityHomeFeeds, List.intercalate_cons_cons] using hkey
  simpa using hids

theorem getSimilarPropSale_injective (const : ConstMemCacheSeparated)
    {t t' : Numeral × Numeral × Numeral × Numeral}
    (hkey : getSimilarPropSale const t.1 t.2.1 t.2.2.1 t.2.2.2 =
      getSimilarPropSale const t'.1 t'.2.1 t'.2.2.1 t'.2.2.2) : t = t' := by
  obtain ⟨a, b, c, d⟩ := t
  obtain ⟨a', b', c', d'⟩ := t'
  have hids : [a, b, c, d] = [a', b', c', d'] := by
    refine numerals_injective (List.cons_ne_nil _ _) (List.cons_ne_nil _ _) ?_
    simpa [getSimilarPropSale, List.intercalate_cons_cons] using hkey
  simpa using hids

/-- **Different arguments have different keys**, with a list of any length in front. -/
theorem separated_keys_injective (const : ConstMemCacheSeparated) :
    (∀ t t' : List Numeral × Numeral × Numeral × Numeral, t ≠ t' →
      getMasterStoreNewProperty const t.1 t.2.1 t.2.2.1 t.2.2.2 ≠
        getMasterStoreNewProperty const t'.1 t'.2.1 t'.2.2.1 t'.2.2.2) ∧
    (∀ t t' : Numeral × Numeral × Numeral × Numeral × Numeral × Numeral × Numeral, t ≠ t' →
      getCommunityHomeFeeds const t.1 t.2.1 t.2.2.1 t.2.2.2.1 t.2.2.2.2.1 t.2.2.2.2.2.1 t.2.2.2.2.2.2 ≠
        getCommunityHomeFeeds const t'.1 t'.2.1 t'.2.2.1 t'.2.2.2.1 t'.2.2.2.2.1 t'.2.2.2.2.2.1
          t'.2.2.2.2.2.2) ∧
    (∀ t t' : Numeral × Numeral × Numeral × Numeral, t ≠ t' →
      getSimilarPropSale const t.1 t.2.1 t.2.2.1 t.2.2.2 ≠
        getSimilarPropSale const t'.1 t'.2.1 t'.2.2.1 t'.2.2.2) := by
  refine ⟨fun t t' => mt ?_, fun t t' => mt ?_, fun t t' => mt ?_⟩
  · exact getMasterStoreNewProperty_injective const
  · exact getCommunityHomeFeeds_injective const
  · exact getSimilarPropSale_injective const

theorem separated_keys_no_group :
    let const : ConstMemCacheSeparated := ⟨['s', '_'], ['f', '_'], ['p', '_']⟩
    getMasterStoreNewProperty const [] (.ofNat 10) (.ofNat 1) (.ofNat 7) ≠
      getMasterStoreNewProperty const [.ofNat 10] (.ofNat 10) (.ofNat 1) (.ofNat 7) :=
  (separated_keys_injective ⟨['s', '_'], ['f', '_'], ['p', '_']⟩).1
    ([], .ofNat 10, .ofNat 1, .ofNat 7) ([.ofNat 10], .ofNat 10, .ofNat 1, .ofNat 7)
    (fun h => List.cons_ne_nil _ _ (Prod.mk.inj h).1.symm)

end MemCacheKey

end RubbishStore.Util
