import RubbishStore.Lib.PhpFloat
import Mathlib.Data.Nat.Digits.Defs

/- `Util_StringDeal::convertStrToConstLenthInt`, which makes a number of a given length
   out of a string. The first `lenth` bytes are added up, the first one as ones, the next
   as tens and so on (`weight`); a sum above 1000 is cut to the length, any other is
   filled up with zeros. The sum is an integer as long as it fits one, then a float
   (`Summed`), and the text has the length asked for exactly if the sum is small enough to
   be filled up, or has as many digits and fits an integer
   (`convertStrToConstLenthInt_iff`). -/
namespace RubbishStore.Util.StringDeal
open RubbishStore.Lib RubbishStore.Lib.PhpFloat

/-- `substr($s, 0, $length)` -/
def substr {α : Type} (s : List α) (length : Int) : List α :=
  if 0 ≤ length then s.take length.toNat else s.take (s.length - length.natAbs)

/-- `str_split`; an empty string is one piece. -/
def strSplit (str : Octets) : List Octets := if str = [] then [[]] else str.map fun b => [b]

/-- The code of the first byte. -/
def ord : Octets → WholeInt
  | [] => ⟨0, by decide⟩
  | b :: _ => ⟨b.toNat, Nat.le_trans (Nat.le_of_lt b.toNat_lt) (by decide)⟩

/-- `$pre *= 10` -/
def timesTen (pre : Number) : Number := pre.mul (.int ⟨10, by decide⟩)

/-- The inner loop, from `$pre = 1`. -/
def powerOfTen (key : Nat) : Number := timesTen^[key] (.int ⟨1, by decide⟩)

/-- The loop over the pieces and their keys. -/
def sum (strArray : List Octets) : Number :=
  strArray.zipIdx.foldl (fun int p => int.add ((powerOfTen p.2).mul (.int (ord p.1)))) (.int ⟨0, by decide⟩)

/-- What is returned: the number as it is, or a text. -/
inductive Result where
  | number (n : Number)
  | text (s : Text)

def Result.toText : Result → Text
  | .number n => n.text
  | .text s => s

/-- The end of the function: the sum is cut, or filled up. -/
def fitted (int : Number) (lenth : Int) : Result :=
  if int.gt 1000 then .text (substr int.text lenth)
  else if int.text.length < lenth then
    .text (int.text ++ List.replicate (lenth.toNat - int.text.length) '0')
  else .number int

def convertStrToConstLenthInt (str : Octets) (lenth : Int) : Result :=
  let str := if lenth < str.length then substr str lenth else str
  fitted (sum (strSplit str)) lenth

/-- Decimal digits, as many as asked for. -/
def IsNumeral (s : Text) (lenth : Int) : Prop := s.length = lenth ∧ ∀ c ∈ s, c.isDigit = true

/-- The bytes as decimal places, the ones first. -/
def weight (bytes : Octets) : Nat := Nat.ofDigits 10 (bytes.map UInt8.toNat)

/-- The sum of the bytes is a small one that is filled up and has not become no number, or
    one above 1000 with digits enough that still is an integer. -/
def Fits (bytes : Octets) (lenth : Int) : Prop :=
  (weight bytes ≤ 1000 ∧ weight bytes < 10 ^ lenth.toNat ∧ bytes.length ≤ 309) ∨
  (1000 < weight bytes ∧ 10 ^ (lenth.toNat - 1) ≤ weight bytes ∧ weight bytes ≤ 9223372036854775807)

instance (bytes : Octets) (lenth : Int) : Decidable (Fits bytes lenth) := inferInstanceAs (Decidable (_ ∨ _))

/-! The powers of ten. -/

theorem powerOfTen_succ (key : Nat) : powerOfTen (key + 1) = timesTen (powerOfTen key) :=
  Function.iterate_succ_apply' timesTen key _

theorem ten_pow_le {key : Nat} (h : key ≤ 18) : 10 ^ key ≤ 9223372036854775807 :=
  Nat.le_trans (Nat.pow_le_pow_right (by decide) h) (by decide)

theorem powerOfTen_int {key : Nat} (h : key ≤ 18) : powerOfTen key = .int ⟨10 ^ key, ten_pow_le h⟩ := by
  induction key with
  | zero => rfl
  | succ key ih =>
    have hfits : 10 ^ key * 10 ≤ 9223372036854775807 := by
      rw [← Nat.pow_succ]
      exact ten_pow_le h
    rw [powerOfTen_succ, ih (Nat.le_of_succ_le h), timesTen, Number.mul, dif_pos hfits]
    rfl

/-- From the twentieth on they are floats. -/
theorem powerOfTen_double {key : Nat} (h : 19 ≤ key) : ∃ x, powerOfTen key = .double x ∧ x.gt 1000 = true := by
  induction key, h using Nat.le_induction with
  | base =>
    have htop : 1000 < PhpNumber.round53 (10 ^ 18) := lt_round53 (by decide) (by decide)
    rw [powerOfTen_succ, powerOfTen_int (Nat.le_refl 18), timesTen, Number.mul, dif_neg (by decide)]
    exact ⟨_, rfl, Double.gt_mul (by decide) (decide_eq_true htop) (by decide)⟩
  | succ key _ ih =>
    obtain ⟨x, hx, hgt⟩ := ih
    rw [powerOfTen_succ, hx]
    exact ⟨_, rfl, Double.gt_mul (by decide) hgt (by decide)⟩

/-- The last finite one is 10 to the 308. -/
theorem powerOfTen_last :
    let pre := powerOfTen 308
    pre ≠ .double .infinite ∧ timesTen pre = .double .infinite := by
  decide +kernel

theorem powerOfTen_infinite_iff {key : Nat} : powerOfTen key = .double .infinite ↔ 309 ≤ key := by
  have hkeeps : ∀ key' more, powerOfTen key' = .double .infinite → powerOfTen (key' + more) = .double .infinite := by
    intro key' more h
    induction more with
    | zero => exact h
    | succ more ih =>
      rw [← Nat.add_assoc, powerOfTen_succ, ih]
      rfl
  -- infinite times ten is infinite, so it is enough to look at the last finite one and the next
  obtain ⟨hlast, hnext⟩ := powerOfTen_last
  refine ⟨fun h => ?_, fun h => ?_⟩
  · by_contra hlt
    apply hlast
    rw [show 308 = key + (308 - key) by omega]
    exact hkeeps key _ h
  · rw [show key = 308 + 1 + (key - 309) by omega]
    apply hkeeps
    rw [powerOfTen_succ]
    exact hnext

/-! The sum. -/

/-- A byte times its power of ten: an integer, a float above 1000 or zero, or no number. -/
inductive Weighed (key b : Nat) : Number → Prop
  | int (hfits : 10 ^ key * b ≤ 9223372036854775807) (hkey : key ≤ 18) : Weighed key b (.int ⟨10 ^ key * b, hfits⟩)
  | zero (hb : b = 0) (hlow : 19 ≤ key) (hhigh : key ≤ 308) : Weighed key b (.double (.finite 0))
  | large {x : Double} (hx : x.gt 1000 = true) (hb : 0 < b) (hlong : 9223372036854775807 < 10 ^ key * b ∨ 19 ≤ key) :
      Weighed key b (.double x)
  | nan (hkey : 309 ≤ key) : Weighed key b (.double .nan)

/-- Up to the nineteenth byte the power is an integer. -/
theorem weighed_int {key : Nat} {b : WholeInt} (hb : b.1 ≤ 255) (hkey : key ≤ 18) :
    Weighed key b.1 ((powerOfTen key).mul (.int b)) := by
  rw [powerOfTen_int hkey, Number.mul]
  by_cases hfits : 10 ^ key * b.1 ≤ 9223372036854775807
  · rw [dif_pos hfits]
    exact .int hfits hkey
  · have hle : 10 ^ key * b.1 ≤ 10 ^ key * 255 := Nat.mul_le_mul_left _ hb
    have hpow : 1000 < PhpNumber.round53 (10 ^ key) := lt_round53 (by decide) (by omega)
    have hpos : 0 < b.1 := Nat.pos_of_ne_zero fun hzero => hfits (by rw [hzero, Nat.mul_zero]; decide)
    rw [dif_neg hfits]
    exact .large (Double.gt_mul (by decide) (decide_eq_true hpow) (lt_round53 (by decide) hpos)) hpos (.inl (by omega))

/-- From the twentieth on zero times it is zero, or no number. -/
theorem weighed_double {key : Nat} (b : WholeInt) (hkey : 19 ≤ key) :
    Weighed key b.1 ((powerOfTen key).mul (.int b)) := by
  obtain ⟨x, hx, hgt⟩ := powerOfTen_double hkey
  rw [hx]
  show Weighed key b.1 (.double (x.mul (.finite (PhpNumber.round53 b.1))))
  by_cases hzero : b.1 = 0
  · rw [hzero, round53_of_lt (by decide)]
    cases x with
    | nan => cases hgt
    | infinite => exact .nan (powerOfTen_infinite_iff.mp hx)
    | finite m =>
      have hhigh : key ≤ 308 := by
        by_contra hlt
        rw [powerOfTen_infinite_iff.mpr (by omega)] at hx
        cases hx
      have hprod : (Double.finite m).mul (.finite 0) = .finite 0 := by
        show Double.round (m * 0) = .finite 0
        rw [Nat.mul_zero, Double.round_of_lt (by decide)]
      rw [hprod]
      exact .zero rfl hkey hhigh
  · have hpos : 0 < b.1 := Nat.pos_of_ne_zero hzero
    exact .large (Double.gt_mul (by decide) hgt (lt_round53 (by decide) hpos)) hpos (.inr hkey)

theorem weighed (key : Nat) {b : WholeInt} (hb : b.1 ≤ 255) : Weighed key b.1 ((powerOfTen key).mul (.int b)) := by
  by_cases hkey : key ≤ 18
  · exact weighed_int hb hkey
  · exact weighed_double b (Nat.lt_of_not_le hkey)

/-- What has been added up after some bytes, against their exact weight. -/
inductive Summed (count w : Nat) : Number → Prop
  | int (hfits : w ≤ 9223372036854775807) (hcount : count ≤ 19) : Summed count w (.int ⟨w, hfits⟩)
  | small (hw : w ≤ 1000) (hlow : 20 ≤ count) (hhigh : count ≤ 309) : Summed count w (.double (.finite w))
  | large {x : Double} (hx : x.gt 1000 = true) (hw : 1000 < w) (hlong : 9223372036854775807 < w ∨ 20 ≤ count) :
      Summed count w (.double x)
  | nan (hcount : 310 ≤ count) : Summed count w (.double .nan)

theorem lt_of_long {key b : Nat} (hb : 0 < b) (hlong : 9223372036854775807 < 10 ^ key * b ∨ 19 ≤ key) : 1000 < 10 ^ key * b := by
  rcases hlong with hlong | hkey
  · exact Nat.lt_trans (by decide) hlong
  · have hpow : 10 ^ 19 ≤ 10 ^ key := Nat.pow_le_pow_right (by decide) hkey
    have hle : 10 ^ key ≤ 10 ^ key * b := Nat.le_mul_of_pos_right _ hb
    exact Nat.lt_of_lt_of_le (by decide) (Nat.le_trans hpow hle)

theorem ne_nan_of_gt {x : Double} {n : Nat} (h : x.gt n = true) : x ≠ .nan := by
  rintro rfl
  cases h

section
variable {count w b : Nat} {x : Number}

/-- An integer more: the sum becomes a float when it is too large for an integer. -/
theorem Summed.add_int (hx : Summed count w x) (hfits : 10 ^ count * b ≤ 9223372036854775807) (hkey : count ≤ 18) :
    Summed (count + 1) (w + 10 ^ count * b) (x.add (.int ⟨10 ^ count * b, hfits⟩)) := by
  cases hx with
  | int hfits' hcount =>
    rw [Number.add]
    split
    · next h => exact .int h (Nat.succ_le_succ hkey)
    · next h =>
      have hover : 9223372036854775807 < w + 10 ^ count * b := Nat.lt_of_not_le h
      refine .large ?_ (by omega) (.inl hover)
      -- one of the two is above 1000
      by_cases hw : 1000 < w
      · exact Double.gt_add (by decide) (decide_eq_true (lt_round53 (by decide) hw)) nofun
      · have hterm : 1000 < PhpNumber.round53 (10 ^ count * b) := lt_round53 (by decide) (by omega)
        rw [Double.add_comm]
        exact Double.gt_add (by decide) (decide_eq_true hterm) nofun
  | small hw hlow hhigh => omega
  | large hx hw hlong => exact .large (Double.gt_add (by decide) hx nofun) (by omega) (.inl (by omega))
  | nan hcount => omega

/-- The float zero more: only that the sum is a float now. -/
theorem Summed.add_zero (hx : Summed count w x) (hlow : 19 ≤ count) (hhigh : count ≤ 308) :
    Summed (count + 1) w (x.add (.double (.finite 0))) := by
  cases hx with
  | int hfits hcount =>
    show Summed (count + 1) w (.double (Double.round (PhpNumber.round53 w + 0)))
    rw [Nat.add_zero (PhpNumber.round53 w)]
    by_cases hw : w ≤ 1000
    · have hsmall : w < 2 ^ 53 := Nat.lt_of_le_of_lt hw (by decide)
      rw [round53_of_lt hsmall, Double.round_of_lt hsmall]
      exact .small hw (Nat.succ_le_succ hlow) (by omega)
    · have hround : 1000 < PhpNumber.round53 w := lt_round53 (by decide) (Nat.lt_of_not_le hw)
      exact .large (Double.gt_round (by decide) hround) (Nat.lt_of_not_le hw) (.inr (Nat.succ_le_succ hlow))
  | small hw hlow' hhigh' =>
    show Summed (count + 1) w (.double (Double.round (w + 0)))
    rw [Nat.add_zero w, Double.round_of_lt (Nat.lt_of_le_of_lt hw (by decide))]
    exact .small hw (by omega) (by omega)
  | large hx hw hlong => exact .large (Double.gt_add (by decide) hx nofun) hw (hlong.imp_right Nat.le_succ_of_le)
  | nan hcount => exact .nan (Nat.le_succ_of_le hcount)

/-- A float above 1000 more. -/
theorem Summed.add_large {y : Double} (hx : Summed count w x) (hy : y.gt 1000 = true) (hb : 0 < b)
    (hlong : 9223372036854775807 < 10 ^ count * b ∨ 19 ≤ count) :
    Summed (count + 1) (w + 10 ^ count * b) (x.add (.double y)) := by
  have hterm := lt_of_long hb hlong
  have hlong' : 9223372036854775807 < w + 10 ^ count * b ∨ 20 ≤ count + 1 :=
    hlong.imp (Nat.lt_of_lt_of_le · (Nat.le_add_left _ w)) Nat.succ_le_succ
  have hother : ∀ z : Double, z ≠ .nan → (z.add y).gt 1000 = true := by
    intro z hz
    rw [Double.add_comm]
    exact Double.gt_add (by decide) hy hz
  cases hx with
  | int hfits hcount => exact .large (hother _ nofun) (by omega) hlong'
  | small hw hlow hhigh => exact .large (hother _ nofun) (by omega) hlong'
  | large hx hw hlong => exact .large (hother _ (ne_nan_of_gt hx)) (by omega) hlong'
  | nan hcount => exact .nan (Nat.le_succ_of_le hcount)

theorem Summed.add_nan (w : Nat) (x : Number) (hkey : 309 ≤ count) : Summed (count + 1) w (x.add (.double .nan)) := by
  have hnan : x.add (.double .nan) = .double .nan := by
    cases x with
    | int n => rfl
    | double x => exact congrArg Number.double (Double.add_nan x)
  rw [hnan]
  exact .nan (Nat.succ_le_succ hkey)

/-- The step: one byte more. -/
theorem Summed.add {y : Number} (hx : Summed count w x) (hy : Weighed count b y) :
    Summed (count + 1) (w + 10 ^ count * b) (x.add y) := by
  cases hy with
  | int hfits hkey => exact hx.add_int hfits hkey
  | zero hb hlow hhigh =>
    rw [hb, Nat.mul_zero, Nat.add_zero]
    exact hx.add_zero hlow hhigh
  | large hy hb hlong => exact hx.add_large hy hb hlong
  | nan hkey => exact Summed.add_nan _ x hkey

end

theorem weight_concat (bytes : Octets) (b : UInt8) :
    weight (bytes ++ [b]) = weight bytes + 10 ^ bytes.length * b.toNat := by
  rw [weight, List.map_append, Nat.ofDigits_append, List.length_map, List.map_singleton, Nat.ofDigits_singleton, weight]

/-- The run: so it is after all of them. -/
theorem summed_sum (bytes : Octets) : Summed bytes.length (weight bytes) (sum (bytes.map fun b => [b])) := by
  induction bytes using List.reverseRecOn with
  | nil => exact .int (Nat.zero_le _) (Nat.zero_le _)
  | append_singleton bytes b ih =>
    have hb : (ord [b]).1 ≤ 255 := Nat.le_of_lt_succ b.toNat_lt
    have hstep : sum ((bytes ++ [b]).map fun b => [b]) =
        (sum (bytes.map fun b => [b])).add ((powerOfTen bytes.length).mul (.int (ord [b]))) := by
      rw [sum, List.map_append, List.zipIdx_append, List.foldl_append, List.length_map, Nat.zero_add]
      rfl
    rw [hstep, List.length_append, weight_concat]
    exact ih.add (weighed bytes.length hb)

theorem summed_strSplit (str : Octets) : Summed str.length (weight str) (sum (strSplit str)) := by
  by_cases hstr : str = []
  · subst hstr
    exact .int (Nat.zero_le _) (Nat.zero_le _)
  · rw [strSplit, if_neg hstr]
    exact summed_sum str

theorem weight_lt (bytes : Octets) : 9 * weight bytes + 255 ≤ 255 * 10 ^ bytes.length := by
  induction bytes with
  | nil => decide
  | cons b bytes ih =>
    have hb := b.toNat_lt
    rw [weight, List.map_cons, Nat.ofDigits_cons, List.length_cons, Nat.pow_succ]
    rw [weight] at ih
    omega

/-- A sum that is no small integer has eighteen bytes at least. -/
theorem length_of_long {bytes : Octets} (hlong : 9223372036854775807 < weight bytes ∨ 20 ≤ bytes.length) :
    18 ≤ bytes.length := by
  rcases hlong with hlong | hlong
  · by_contra hlt
    have hbound := weight_lt bytes
    have hpow : 10 ^ bytes.length ≤ 10 ^ 17 := Nat.pow_le_pow_right (by decide) (by omega)
    omega
  · omega

/-! The text. -/

theorem substr_pos {α : Type} (s : List α) {lenth : Int} (h : 1 ≤ lenth) : substr s lenth = s.take lenth.toNat := by
  rw [substr, if_pos (by omega)]

/-- The first bytes, as many as the length says. -/
theorem kept_eq (str : Octets) {lenth : Int} (h : 1 ≤ lenth) :
    (if lenth < str.length then substr str lenth else str) = str.take lenth.toNat := by
  split
  · exact substr_pos str h
  · exact (List.take_of_length_le (by omega)).symm

theorem isNumeral_cut_iff {int : Number} {lenth : Int} (hlenth : 1 ≤ lenth) (hgt : int.gt 1000 = true) :
    IsNumeral (fitted int lenth).toText lenth ↔
      lenth ≤ int.text.length ∧ ∀ c ∈ int.text.take lenth.toNat, c.isDigit = true := by
  rw [fitted, if_pos hgt, Result.toText, substr_pos _ hlenth, IsNumeral, List.length_take]
  exact and_congr_left fun _ => by omega

theorem isNumeral_filled_iff {int : Number} {lenth : Int} (hgt : int.gt 1000 = false) :
    IsNumeral (fitted int lenth).toText lenth ↔ int.text.length ≤ lenth ∧ ∀ c ∈ int.text, c.isDigit = true := by
  rw [fitted, if_neg (by rw [hgt]; exact Bool.false_ne_true)]
  split
  · next hshort =>
    have hdigits : (∀ c ∈ int.text ++ List.replicate (lenth.toNat - int.text.length) '0', c.isDigit = true) ↔
        ∀ c ∈ int.text, c.isDigit = true := by
      rw [List.forall_mem_append]
      refine and_iff_left fun c hc => ?_
      rw [List.eq_of_mem_replicate hc]
      decide
    rw [Result.toText, IsNumeral, hdigits, List.length_append, List.length_replicate]
    exact and_congr_left fun _ => by omega
  · next hlong =>
    rw [Result.toText, IsNumeral]
    exact and_congr_left fun _ => by omega

/-- A sum that is small is filled up, as an integer or as a float. -/
theorem isNumeral_small_iff {int : Number} {w : Nat} {lenth : Int} (hlenth : 1 ≤ lenth) (hgt : int.gt 1000 = false)
    (htext : int.text = Nat.toDigits 10 w) : IsNumeral (fitted int lenth).toText lenth ↔ w < 10 ^ lenth.toNat := by
  rw [isNumeral_filled_iff hgt, htext, and_iff_left (isDigit_toDigits w), ← length_toDigits_le_iff (by omega)]
  omega

/-- An integer above 1000 is cut. -/
theorem isNumeral_int_iff {n : WholeInt} {lenth : Int} (hlenth : 1 ≤ lenth) (hn : 1000 < n.1) :
    IsNumeral (fitted (.int n) lenth).toText lenth ↔ 10 ^ (lenth.toNat - 1) ≤ n.1 := by
  have hgt : (Number.int n).gt 1000 = true := decide_eq_true hn
  rw [isNumeral_cut_iff hlenth hgt, Number.text,
    and_iff_left fun c hc => isDigit_toDigits n.1 c (List.mem_of_mem_take hc),
    ← le_length_toDigits_iff (by omega) (by omega)]
  omega

/-- A float above 1000 never has the length. -/
theorem not_isNumeral_large {x : Double} {lenth : Int} (hlenth : 18 ≤ lenth) (hx : x.gt 1000 = true) :
    ¬ IsNumeral (fitted (.double x) lenth).toText lenth := by
  have hprecision : Double.precision < lenth.toNat := by
    rw [Double.precision]
    omega
  have hgt : (Number.double x).gt 1000 = true := hx
  rw [isNumeral_cut_iff (by omega) hgt, Number.text]
  rintro ⟨hlength, hdigits⟩
  rcases Double.text_take (x := x) hprecision with hshort | ⟨c, hc, hcdigit⟩
  · rw [List.length_take] at hshort
    omega
  · rw [hdigits c hc] at hcdigit
    cases hcdigit

theorem not_isNumeral_nan (lenth : Int) : ¬ IsNumeral (fitted (.double .nan) lenth).toText lenth := by
  rw [isNumeral_filled_iff rfl]
  rintro ⟨-, hdigits⟩
  have hletter : 'N' ∈ (Number.double .nan).text := by
    rw [Number.text, Double.text, chars]
    exact List.mem_cons_self
  exact absurd (hdigits 'N' hletter) (by decide)

theorem fits_small_iff {bytes : Octets} (lenth : Int) (hw : weight bytes ≤ 1000) (hlength : bytes.length ≤ 309) :
    Fits bytes lenth ↔ weight bytes < 10 ^ lenth.toNat := by
  refine ⟨fun h => ?_, fun h => .inl ⟨hw, h, hlength⟩⟩
  rcases h with ⟨-, h, -⟩ | ⟨hlarge, -⟩
  · exact h
  · exact absurd hlarge (Nat.not_lt.mpr hw)

theorem not_fits_of_long {bytes : Octets} {lenth : Int} (hlength : bytes.length ≤ lenth.toNat)
    (hsmall : weight bytes ≤ 1000 → 309 < bytes.length)
    (hlong : 9223372036854775807 < weight bytes ∨ 20 ≤ bytes.length) : ¬ Fits bytes lenth := by
  rintro (⟨hw, -, hcount⟩ | ⟨-, hdigits, hfits⟩)
  · exact absurd (hsmall hw) (Nat.not_lt.mpr hcount)
  · have hcount : 20 ≤ bytes.length := hlong.resolve_left (Nat.not_lt.mpr hfits)
    have hpow : 10 ^ 19 ≤ 10 ^ (lenth.toNat - 1) := Nat.pow_le_pow_right (by decide) (by omega)
    omega

/-- For every string and every length from one on, the text is as many decimal digits
    exactly if the sum fits. -/
theorem convertStrToConstLenthInt_iff (str : Octets) {lenth : Int} (hlenth : 1 ≤ lenth) :
    IsNumeral (convertStrToConstLenthInt str lenth).toText lenth ↔ Fits (str.take lenth.toNat) lenth := by
  have hconvert : convertStrToConstLenthInt str lenth = fitted (sum (strSplit (str.take lenth.toNat))) lenth := by
    rw [convertStrToConstLenthInt]
    simp only [kept_eq str hlenth]
  have hlength : (str.take lenth.toNat).length ≤ lenth.toNat := List.length_take_le _ _
  rw [hconvert]
  generalize str.take lenth.toNat = bytes at hlength
  have hsum := summed_strSplit bytes
  generalize sum (strSplit bytes) = int at hsum
  -- one case for each kind of sum; a float above 1000, or no number, never has the length
  cases hsum with
  | int hfits hcount =>
    by_cases hw : 1000 < weight bytes
    · rw [isNumeral_int_iff hlenth hw]
      refine ⟨fun h => .inr ⟨hw, h, hfits⟩, fun h => ?_⟩
      rcases h with ⟨hsmall, -⟩ | ⟨-, h, -⟩
      · exact absurd hw (Nat.not_lt.mpr hsmall)
      · exact h
    · rw [fits_small_iff lenth (Nat.le_of_not_lt hw) (by omega)]
      exact isNumeral_small_iff hlenth (decide_eq_false hw) rfl
  | small hw hlow hhigh =>
    have hgt : (Number.double (.finite (weight bytes))).gt 1000 = false := decide_eq_false (Nat.not_lt.mpr hw)
    rw [fits_small_iff lenth hw hhigh]
    exact isNumeral_small_iff hlenth hgt (text_small (Nat.lt_of_le_of_lt hw (by decide)))
  | large hx hw hlong =>
    have hcount : 18 ≤ bytes.length := length_of_long hlong
    exact iff_of_false (not_isNumeral_large (by omega) hx)
      (not_fits_of_long hlength (fun hsmall => absurd hw (Nat.not_lt.mpr hsmall)) hlong)
  | nan hcount =>
    exact iff_of_false (not_isNumeral_nan lenth) (not_fits_of_long hlength (fun _ => hcount) (.inr (by omega)))

theorem convertStrToConstLenthInt_iff_four :
    IsNumeral (convertStrToConstLenthInt [97, 98, 99, 100] 4).toText 4 ∧ Fits [97, 98, 99, 100] 4 := by
  have hfits : Fits [97, 98, 99, 100] 4 := by decide
  exact ⟨(convertStrToConstLenthInt_iff [97, 98, 99, 100] (by decide)).mpr hfits, hfits⟩

/-- With `ab` the sum is 1077, which is not filled up. With `a` it is 97, which is not cut.
    Of twenty bytes it is a float. -/
theorem convertStrToConstLenthInt_wrong_length :
    (convertStrToConstLenthInt [97, 98] 10).toText = chars "1077" ∧
    (convertStrToConstLenthInt [97] 1).toText = chars "97" ∧
    (convertStrToConstLenthInt (List.replicate 20 97) 20).toText = chars "1.0777777777778E+21" ∧
    ¬ ∀ (str : Octets) (lenth : Int), str ≠ [] → 1 ≤ lenth →
      IsNumeral (convertStrToConstLenthInt str lenth).toText lenth := by
  have hab : (convertStrToConstLenthInt [97, 98] 10).toText = chars "1077" := by decide +kernel
  refine ⟨hab, by decide +kernel, by decide +kernel, fun h => ?_⟩
  have hten := h [97, 98] 10 (List.cons_ne_nil _ _) (by decide)
  rw [hab] at hten
  exact absurd hten.1 (by decide +kernel)

end RubbishStore.Util.StringDeal
