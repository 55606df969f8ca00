import Mathlib.Data.Rat.Floor
import RubbishStore.Lib.PhpText

/- Calculations of `Util_PublicMethods` on whole numbers: which kind of property an id
   belongs to and the id without its kind, the page of a list that a request asks for, and
   the length of a time. Numbers are not bounded here, and the `floor` of a quotient is
   that of the exact quotient (PHP rounds the quotient to 53 bits first, which leaves its
   floor alone while dividend and divisor are below 2^52). -/
namespace RubbishStore.Util.PublicMethods
open RubbishStore.Lib

/-! Ids of properties. Those of a private seller start above 1000000000, those of an
    agency in the network above 500000000; the ids below belong to sales of others. -/

inductive PropType where
  | personal
  | aifang
  | sale
  deriving DecidableEq

def is_personal_prop (proid : Int) : Bool := proid > 1000000000

def is_aifang_prop (proid : Int) : Bool := proid < 1000000000 ∧ proid > 500000000

/-- What the two converters do, each with its own base. An id that is not converted goes
    through `intval`, which leaves an integer as it is. -/
def convPropid (base proid : Int) (code : Text) : Int :=
  if code = chars "decode" ∧ proid > base then proid - base
  else if code = chars "encode" ∧ proid < base then proid + base
  else proid

def conv_personal_propid (proid : Int) (code : Text := chars "decode") : Int :=
  convPropid 1000000000 proid code

def conv_aifang_propid (proid : Int) (code : Text := chars "decode") : Int :=
  convPropid 500000000 proid code

def check_prop_type (proid : Int) : PropType :=
  if proid > 1000000000 then .personal else if proid > 500000000 then .aifang else .sale

theorem convPropid_encode (base proid : Int) :
    convPropid base proid (chars "encode") = if proid < base then proid + base else proid := by
  have hne : chars "encode" ≠ chars "decode" := by simp [chars]
  simp [convPropid, hne]

theorem convPropid_decode (base proid : Int) :
    convPropid base proid (chars "decode") = if proid > base then proid - base else proid := by
  have hne : chars "decode" ≠ chars "encode" := by simp [chars]
  simp [convPropid, hne]

/-- A raw id below the base comes back, unless it is 0 and its code the base itself. -/
theorem decode_encode_iff {base proid : Int} (hlow : 0 ≤ proid) (hhigh : proid < base) :
    convPropid base (convPropid base proid (chars "encode")) (chars "decode") = proid ↔ proid ≠ 0 := by
  rw [convPropid_encode, if_pos hhigh, convPropid_decode]
  constructor
  · intro hback hzero
    rw [hzero, zero_add, if_neg (lt_irrefl base)] at hback
    omega
  · intro hne
    rw [if_pos (by omega)]
    omega

/-- The type of an id agrees with the two tests. -/
def TypesAgree (proid : Int) : Prop :=
  (check_prop_type proid = .personal ↔ is_personal_prop proid = true) ∧
    (check_prop_type proid = .aifang ↔ is_aifang_prop proid = true)

theorem check_prop_type_personal_iff (proid : Int) :
    check_prop_type proid = .personal ↔ is_personal_prop proid = true := by
  rw [check_prop_type, is_personal_prop, decide_eq_true_eq]
  grind

theorem check_prop_type_aifang_iff (proid : Int) :
    check_prop_type proid = .aifang ↔ is_aifang_prop proid = true ∨ proid = 1000000000 := by
  rw [check_prop_type, is_aifang_prop, decide_eq_true_eq]
  grind

theorem typesAgree_iff (proid : Int) : TypesAgree proid ↔ proid ≠ 1000000000 := by
  rw [TypesAgree, check_prop_type_personal_iff, check_prop_type_aifang_iff]
  constructor
  · intro hagree hthreshold
    have haifang : is_aifang_prop proid = true := hagree.2.mp (.inr hthreshold)
    rw [is_aifang_prop, decide_eq_true_eq] at haifang
    omega
  · intro hne
    exact ⟨Iff.rfl, or_iff_left hne⟩

/-- A raw id keeps its value through either code, and the code is of the type it was made for. -/
def CodesAgree (proid : Int) : Prop :=
  conv_personal_propid (conv_personal_propid proid (chars "encode")) = proid ∧
    conv_aifang_propid (conv_aifang_propid proid (chars "encode")) = proid ∧
    check_prop_type (conv_personal_propid proid (chars "encode")) = .personal ∧
    check_prop_type (conv_aifang_propid proid (chars "encode")) = .aifang

/-- **The two thresholds themselves belong to nobody**: 1000000000 has the type of an agency
    without being one of its ids, and the raw id 0 is encoded to the thresholds. -/
theorem prop_types_agree_iff (proid : Int) :
    (TypesAgree proid ↔ proid ≠ 1000000000) ∧
      (0 ≤ proid → proid < 500000000 → (CodesAgree proid ↔ proid ≠ 0)) := by
  refine ⟨typesAgree_iff proid, fun hlow hhigh => ?_⟩
  have hpersonal : conv_personal_propid proid (chars "encode") = proid + 1000000000 := by
    rw [conv_personal_propid, convPropid_encode, if_pos (by omega)]
  have haifang : conv_aifang_propid proid (chars "encode") = proid + 500000000 := by
    rw [conv_aifang_propid, convPropid_encode, if_pos hhigh]
  have hback : conv_personal_propid (conv_personal_propid proid (chars "encode")) = proid ↔ proid ≠ 0 :=
    decode_encode_iff hlow (by omega)
  have hback' : conv_aifang_propid (conv_aifang_propid proid (chars "encode")) = proid ↔ proid ≠ 0 :=
    decode_encode_iff hlow hhigh
  have htype : check_prop_type (proid + 1000000000) = .personal ↔ proid ≠ 0 := by
    rw [check_prop_type_personal_iff, is_personal_prop, decide_eq_true_eq]
    omega
  have htype' : check_prop_type (proid + 500000000) = .aifang ↔ proid ≠ 0 := by
    rw [check_prop_type_aifang_iff, is_aifang_prop, decide_eq_true_eq]
    omega
  rw [CodesAgree, hback, hback', hpersonal, haifang, htype, htype']
  simp only [and_self]

theorem prop_types_agree_iff_one :
    (TypesAgree 1000000001 ↔ (1000000001 : Int) ≠ 1000000000) ∧ (CodesAgree 1 ↔ (1 : Int) ≠ 0) :=
  ⟨(prop_types_agree_iff 1000000001).1, (prop_types_agree_iff 1).2 (by decide) (by decide)⟩

theorem threshold_types_differ :
    (check_prop_type 1000000000 = .aifang ∧ is_aifang_prop 1000000000 = false) ∧
      ¬ ((∀ proid : Int, TypesAgree proid) ∧
        ∀ proid : Int, 0 ≤ proid → proid < 500000000 → CodesAgree proid) := by
  refine ⟨by decide, fun h => ?_⟩
  have hagree : TypesAgree 1000000000 := h.1 1000000000
  have haifang : is_aifang_prop 1000000000 = true := hagree.2.mp (by decide)
  exact absurd haifang (by decide)

/-! The page of a list. -/

/-- What a request gives for a number: an integer, or a text that is none. -/
inductive Param where
  | int (i : Int)
  | text (s : Text) (h : PhpText.isNumeric (s.map Char.toNat) = false)

/-- `is_numeric`, with the number. -/
def Param.numeric : Param → Option Int
  | int i => some i
  | text _ _ => none

/-- A number that is 1 at least, and the default for everything else. -/
def Param.atLeastOne (default : Int) (p : Param) : Int :=
  match p.numeric with
  | some i => if i < 1 then default else i
  | none => default

structure SearchPage where
  pagenum : Int
  pagesize : Int

structure Page extends SearchPage where
  totalnum : Int
  totalpage : Int

def getSearchPage (pageNum pageSize : Param) : SearchPage where
  pagenum := pageNum.atLeastOne 1
  pagesize := pageSize.atLeastOne 20

/-- A division by zero is `none`. -/
def getPage (pageNum pageSize : Param) (totalCnt : Int) : Option Page :=
  let page := getSearchPage pageNum pageSize
  if page.pagesize = 0 then none
  else
    let totalpage :=
      if totalCnt.tmod page.pagesize = 0 then totalCnt.tdiv page.pagesize
      else totalCnt.fdiv page.pagesize + 1
    some
      { pagenum := if page.pagenum > totalpage then totalpage else page.pagenum
        pagesize := page.pagesize
        totalnum := totalCnt
        totalpage := totalpage }

theorem Param.one_le_atLeastOne {default : Int} (hdefault : 1 ≤ default) (p : Param) :
    1 ≤ p.atLeastOne default := by
  rw [atLeastOne]
  split
  · split <;> omega
  · exact hdefault

theorem ceil_div_eq {total size pages : Int} (hsize : 0 < size) (hlow : (pages - 1) * size < total)
    (hhigh : total ≤ pages * size) : ⌈(total : ℚ) / size⌉ = pages := by
  have hpos : (0 : ℚ) < size := by exact_mod_cast hsize
  rw [Int.ceil_eq_iff, lt_div_iff₀ hpos, div_le_iff₀ hpos]
  exact ⟨by exact_mod_cast hlow, by exact_mod_cast hhigh⟩

/-- The two branches for the number of pages come to the same: the quotient rounded up. -/
theorem totalpage_eq_ceil {total size : Int} (htotal : 0 ≤ total) (hsize : 0 < size) :
    (if total.tmod size = 0 then total.tdiv size else total.fdiv size + 1) =
      ⌈(total : ℚ) / size⌉ := by
  rw [Int.tmod_eq_emod_of_nonneg htotal, Int.tdiv_eq_ediv_of_nonneg htotal,
    Int.fdiv_eq_ediv_of_nonneg _ (Int.le_of_lt hsize)]
  have hsplit : total / size * size + total % size = total := Int.ediv_mul_add_emod total size
  have hrem := Int.emod_nonneg total (Int.ne_of_gt hsize)
  have hlt := Int.emod_lt_of_pos total hsize
  split
  · refine (ceil_div_eq hsize ?_ ?_).symm
    · rw [Int.sub_mul]
      omega
    · omega
  · refine (ceil_div_eq hsize ?_ ?_).symm
    · rw [Int.add_sub_cancel]
      omega
    · rw [Int.add_mul]
      omega

/-- What a page shows is a part of the list: no division by zero, as many pages as the list
    fills, and a page number among them, so that the first row has an offset. -/
def WithinList (pageNum pageSize : Param) (totalCnt : Int) : Prop :=
  ∃ page, getPage pageNum pageSize totalCnt = some page ∧ 1 ≤ page.pagesize ∧
    page.totalpage = ⌈(totalCnt : ℚ) / page.pagesize⌉ ∧
    1 ≤ page.pagenum ∧ page.pagenum ≤ max 1 page.totalpage ∧
    0 ≤ (page.pagenum - 1) * page.pagesize

theorem ceil_div_pos_iff {total size : Int} (hsize : 0 < size) :
    0 < ⌈(total : ℚ) / size⌉ ↔ 0 < total := by
  have hpos : (0 : ℚ) < size := by exact_mod_cast hsize
  rw [Int.ceil_pos, div_pos_iff_of_pos_right hpos, Int.cast_pos]

theorem getPage_eq (pageNum pageSize : Param) {totalCnt : Int} (htotal : 0 ≤ totalCnt) :
    let page := getSearchPage pageNum pageSize
    getPage pageNum pageSize totalCnt =
      some ⟨⟨min page.pagenum ⌈(totalCnt : ℚ) / page.pagesize⌉, page.pagesize⟩, totalCnt,
        ⌈(totalCnt : ℚ) / page.pagesize⌉⟩ := by
  intro page
  have hsize : 1 ≤ page.pagesize := pageSize.one_le_atLeastOne (by decide)
  have hne : page.pagesize ≠ 0 := by omega
  have hpages := totalpage_eq_ceil htotal hsize
  simp only [page] at hpages hne ⊢
  simp only [getPage, if_neg hne, hpages]
  congr 3
  rw [min_def]
  grind

/-- An end of 0 is the time now. -/
def endOr (now endTime : Int) : Int := if 0 = endTime then now else endTime

/-- Years of 365 days, months of 30 days, days, hours, minutes and seconds, or an empty
    array; `now` is what `time()` returns. -/
def getTimeLength (now startTime : Int) (endTime : Int := 0) : List Int :=
  let interval := endOr now endTime - startTime
  if interval > 0 then
    let year := interval.fdiv 31536000
    let interval := interval.tmod 31536000
    let month := interval.fdiv 2592000
    let interval := interval.tmod 2592000
    let days := interval.fdiv 86400
    let interval := interval.tmod 86400
    let hours := interval.fdiv 3600
    let interval := interval.tmod 3600
    let minutes := interval.fdiv 60
    let seconds := interval.tmod 60
    [year, month, days, hours, minutes, seconds]
  else []

/-- Six numbers that make up an interval, each below what the next greater unit holds. Twelve
    months of 30 days leave five days of a year, so that a year can have a month 12, of less
    than five days. -/
structure Splits (interval year month days hours minutes seconds : Int) : Prop where
  sum : year * 31536000 + month * 2592000 + days * 86400 + hours * 3600 + minutes * 60 + seconds =
    interval
  year : 0 ≤ year
  month : 0 ≤ month ∧ month ≤ 12 ∧ (month = 12 → days < 5)
  days : 0 ≤ days ∧ days < 30
  hours : 0 ≤ hours ∧ hours < 24
  minutes : 0 ≤ minutes ∧ minutes < 60
  seconds : 0 ≤ seconds ∧ seconds < 60

theorem splits_of_pos {interval : Int} (hpos : 0 < interval) :
    Splits interval (interval / 31536000) (interval % 31536000 / 2592000)
      (interval % 31536000 % 2592000 / 86400) (interval % 31536000 % 2592000 % 86400 / 3600)
      (interval % 31536000 % 2592000 % 86400 % 3600 / 60)
      (interval % 31536000 % 2592000 % 86400 % 3600 % 60) where
  sum := by omega
  year := by omega
  month := by omega
  days := by omega
  hours := by omega
  minutes := by omega
  seconds := by omega

/-- The divisions are of numbers that are not negative, so that both ways to round agree. -/
theorem getTimeLength_eq {now startTime endTime : Int} (hend : startTime < endOr now endTime) :
    let interval := endOr now endTime - startTime
    getTimeLength now startTime endTime =
      [interval / 31536000, interval % 31536000 / 2592000,
        interval % 31536000 % 2592000 / 86400, interval % 31536000 % 2592000 % 86400 / 3600,
        interval % 31536000 % 2592000 % 86400 % 3600 / 60,
        interval % 31536000 % 2592000 % 86400 % 3600 % 60] := by
  intro interval
  have hpos : interval > 0 := Int.sub_pos_of_lt hend
  have hdiv : ∀ a b : Int, 0 ≤ b → a.fdiv b = a / b := fun a _ hb => Int.fdiv_eq_ediv_of_nonneg a hb
  have hmod : ∀ a b : Int, 0 ≤ a → a.tmod b = a % b := fun _ b ha => Int.tmod_eq_emod_of_nonneg ha
  have hrem : ∀ a b : Int, 0 < b → 0 ≤ a % b := fun a _ hb => Int.emod_nonneg a (Int.ne_of_gt hb)
  rw [getTimeLength, if_pos hpos]
  dsimp only
  rw [hdiv _ _ (by decide), hmod _ _ (Int.le_of_lt hpos),
    hdiv _ _ (by decide), hmod _ _ (hrem _ _ (by decide)),
    hdiv _ _ (by decide), hmod _ _ (hrem _ _ (by decide)),
    hdiv _ _ (by decide), hmod _ _ (hrem _ _ (by decide)),
    hdiv _ _ (by decide), hmod _ _ (hrem _ _ (by decide))]

end RubbishStore.Util.PublicMethods
