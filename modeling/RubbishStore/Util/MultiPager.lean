import RubbishStore.Lib.Assoc
import RubbishStore.Lib.PhpNumber
import RubbishStore.Util.PublicMethods
import RubbishStore.Util.SolrQuery

/- `Util_MultiPager`: the page numbers around a page of a list, with their links. The
   window that is shown starts half its width before the page, is pushed to the right
   until it starts at 1, then to the left until it ends at the last page, and is cut at 1
   (`window`). `Window.Fits` is what these four steps leave: as many pages as are asked for
   or as there are, all of them pages of the list, and the page in hand among them. How the
   parameters of a link are written is a parameter here, since the framework does it; so is
   the number that a text stands for. -/
namespace RubbishStore.Util.MultiPager
open RubbishStore.Lib

/-- A parameter of a link: a number, or a text of a request. -/
inductive UriParam where
  | int (i : Int)
  | text (s : Octets)
  deriving DecidableEq

abbrev UriParams : Type := List (Octets × UriParam)

/-- What the class takes from the rest of the site. -/
structure Site where
  /-- `Const_Listing::PARAM_N_PAGE` -/
  paramNPage : Octets
  /-- `APF_Util_StringUtils::encode_seo_parameters` -/
  encode_seo_parameters : UriParams → Octets
  /-- A text in a calculation or in a comparison with a number. -/
  number : Octets → Int

structure PageLink where
  page : Int
  link : Octets

structure Row where
  link : Octets
  page : Int
  selected : Nat

/-- The keys that `$simple` leaves out. -/
structure Ends where
  firstpage : Option PageLink
  endpage : Option PageLink
  totalrow : Int
  totalpage : Int
  page : Int
  jumplink : Octets

structure MultiPage where
  list : List Row
  prexpage : Option PageLink
  nextpage : Option PageLink
  ends : Option Ends

/-- The pages that are shown. -/
structure Window where
  startnum : Int
  endnum : Int

/-- How often the loop over the window runs. -/
def Window.count (w : Window) : Nat := (w.endnum + 1 - w.startnum).toNat

/-- `shownum` is one less than the number of pages to show. -/
def window (page pagenum shownum : Int) : Window :=
  let startnum := page - shownum.fdiv 2
  let startnum := if startnum < 1 then 1 else startnum
  let endnum := startnum + shownum
  let moved := endnum > pagenum
  let endnum := if moved then pagenum else endnum
  let startnum := if moved then endnum - shownum else startnum
  let startnum := if startnum < 1 then 1 else startnum
  ⟨startnum, endnum⟩

/-- `ceil($a / $b)` -/
def ceilDiv (a b : Int) : Int := -(-a).fdiv b

def pagenum (totalrow pagesize : Int) : Int :=
  if totalrow > pagesize then ceilDiv totalrow pagesize else 1

namespace Site
variable (site : Site)

/-- Without a page, the first one is meant. -/
def page (uriparams : UriParams) : Int :=
  match uriparams.lookup site.paramNPage with
  | some (.int i) => i
  | some (.text s) => site.number s
  | none => 1

/-- The first page has a link without a number. -/
def setPage (uriparams : UriParams) (page : Int) : UriParams :=
  let uriparams := assocSet uriparams site.paramNPage (.int page)
  if page ≤ 1 then assocErase uriparams site.paramNPage else uriparams

def getPage (page : Int) (uriparams : UriParams) (front kw : Octets) : PageLink where
  page := page
  link := front ++ kw ++ site.encode_seo_parameters (site.setPage uriparams page)

/-- The rows of so many pages from `i` on, and what they leave of the parameters. -/
def rows (page : Int) (front kw : Octets) : Nat → Int → UriParams → List Row × UriParams
  | 0, _, uriparams => ([], uriparams)
  | n + 1, i, uriparams =>
    let uriparams := site.setPage uriparams i
    let row : Row :=
      { link := front ++ kw ++ site.encode_seo_parameters uriparams
        page := i
        selected := if i = page then 1 else 0 }
    let more := rows page front kw n (i + 1) uriparams
    (row :: more.1, more.2)

/-- `$front` is the argument that the links begin with. -/
def multiPage (uriparams : UriParams) (kw : Octets) (totalrow pagesize shownum : Int) (front : Octets)
    (simple : Bool := false) : MultiPage :=
  let kw := Solr.urlencode kw
  let pagenum := pagenum totalrow pagesize
  let page := site.page uriparams
  let shown := window page pagenum (shownum - 1)
  let list := site.rows page front kw shown.count shown.startnum uriparams
  let uriparams := list.2
  let jump := assocSet (assocErase uriparams site.paramNPage) site.paramNPage (.text [])
  { list := list.1
    prexpage := if page > 1 then some (site.getPage (page - 1) uriparams front kw) else none
    nextpage := if page < pagenum then some (site.getPage (page + 1) uriparams front kw) else none
    ends :=
      if simple then none
      else some
        { firstpage := if shown.startnum > 1 then some (site.getPage 1 uriparams front kw) else none
          endpage :=
            if shown.endnum < pagenum then some (site.getPage pagenum uriparams front kw) else none
          totalrow := totalrow
          totalpage := pagenum
          page := page
          jumplink := front ++ kw ++ site.encode_seo_parameters jump } }

end Site

/-! The window, and the number of pages it is a part of. -/

/-- A window of pages of the list, as wide as asked for or as the list is long, that shows
    the page if the list has it. -/
structure Window.Fits (page pagenum shownum : Int) (w : Window) : Prop where
  start : 1 ≤ w.startnum
  stop : w.endnum ≤ pagenum
  width : w.endnum + 1 - w.startnum = min shownum pagenum
  shows : 1 ≤ page → page ≤ pagenum → w.startnum ≤ page ∧ page ≤ w.endnum

theorem window_fits (page pagenum : Int) {shownum : Int} (hshownum : 1 ≤ shownum) :
    (window page pagenum (shownum - 1)).Fits page pagenum shownum := by
  have hhalf : (shownum - 1).fdiv 2 = (shownum - 1) / 2 := Int.fdiv_eq_ediv_of_nonneg _ (by decide)
  constructor
  · grind [window]
  · grind [window]
  · grind [window]
  · grind [window]

theorem ceilDiv_eq (a : Int) {b : Int} (hb : 0 < b) : ceilDiv a b = ⌈(a : ℚ) / b⌉ := by
  have hfloor : (-a).fdiv b = -a / b := Int.fdiv_eq_ediv_of_nonneg _ (Int.le_of_lt hb)
  have hsplit : -a / b * b + -a % b = -a := Int.ediv_mul_add_emod (-a) b
  have hrem := Int.emod_nonneg (-a) (Int.ne_of_gt hb)
  have hlt := Int.emod_lt_of_pos (-a) hb
  rw [ceilDiv, hfloor]
  refine (PublicMethods.ceil_div_eq hb ?_ ?_).symm
  · rw [Int.sub_mul, Int.neg_mul]
    omega
  · rw [Int.neg_mul]
    omega

/-- As many pages as the rows fill, and one for no rows at all. -/
theorem pagenum_eq {totalrow pagesize : Int} (htotal : 0 ≤ totalrow) (hsize : 1 ≤ pagesize) :
    pagenum totalrow pagesize = max 1 ⌈(totalrow : ℚ) / pagesize⌉ := by
  have hpos : (0 : ℚ) < pagesize := by exact_mod_cast hsize
  rw [pagenum]
  split
  · next hmany =>
    rw [ceilDiv_eq totalrow hsize, max_eq_right]
    exact Int.add_one_le_of_lt ((PublicMethods.ceil_div_pos_iff hsize).mpr (by omega))
  · next hfew =>
    have hone : ⌈(totalrow : ℚ) / pagesize⌉ ≤ 1 := by
      rw [Int.ceil_le, div_le_iff₀ hpos]
      simpa using (by exact_mod_cast Int.not_lt.mp hfew : (totalrow : ℚ) ≤ pagesize)
    exact (max_eq_left hone).symm

/-! The rows. -/

/-- So many numbers from `start` on. -/
def consecutive (start : Int) (count : Nat) : List Int := (List.range count).map fun k : Nat => start + (k : Int)

theorem consecutive_succ (start : Int) (count : Nat) :
    consecutive start (count + 1) = start :: consecutive (start + 1) count := by
  rw [consecutive, List.range_succ_eq_map, List.map_cons, List.map_map, Nat.cast_zero, Int.add_zero]
  congr 1
  apply List.map_congr_left
  intro k hk
  simp only [Function.comp_apply, Nat.succ_eq_add_one]
  omega

theorem mem_consecutive {start i : Int} {count : Nat} :
    i ∈ consecutive start count ↔ start ≤ i ∧ i < start + count := by
  rw [consecutive, List.mem_map]
  constructor
  · intro h
    obtain ⟨k, hk, rfl⟩ := h
    have hlt := List.mem_range.mp hk
    omega
  · intro h
    exact ⟨(i - start).toNat, List.mem_range.mpr (by omega), by omega⟩

theorem consecutive_nodup (start : Int) (count : Nat) : (consecutive start count).Nodup := by
  apply List.Nodup.map _ List.nodup_range
  intro k k' h
  simp only at h
  omega

namespace Site
variable (site : Site) (page : Int) (front kw : Octets)

theorem rows_pages (n : Nat) (i : Int) (uriparams : UriParams) :
    (site.rows page front kw n i uriparams).1.map Row.page = consecutive i n := by
  induction n generalizing i uriparams with
  | zero => rfl
  | succ n ih =>
    rw [rows, List.map_cons, ih, consecutive_succ]

theorem rows_selected (n : Nat) (i : Int) (uriparams : UriParams) :
    ∀ row ∈ (site.rows page front kw n i uriparams).1, row.selected = if row.page = page then 1 else 0 := by
  induction n generalizing i uriparams with
  | zero => simp [rows]
  | succ n ih =>
    rw [rows, List.forall_mem_cons]
    exact ⟨rfl, ih (i + 1) _⟩

/-- Of rows that show the page, one is selected, and it is the one of the page. -/
theorem rows_filter_selected {n : Nat} {i : Int} (hlow : i ≤ page) (hhigh : page < i + n)
    (uriparams : UriParams) :
    ((site.rows page front kw n i uriparams).1.filter fun row => row.selected = 1).map Row.page =
      [page] := by
  have hmark : ∀ row ∈ (site.rows page front kw n i uriparams).1,
      decide (row.selected = 1) = ((fun p => p == page) ∘ Row.page) row := by
    intro row hrow
    rw [rows_selected site page front kw n i uriparams row hrow]
    by_cases hpage : row.page = page
    · simp [hpage]
    · simp [hpage]
  have hmem : page ∈ consecutive i n := mem_consecutive.mpr ⟨hlow, hhigh⟩
  rw [List.filter_congr hmark, ← List.filter_map, rows_pages, List.filter_beq,
    List.count_eq_one_of_mem (consecutive_nodup i n) hmem]
  rfl

end Site

/-! The pager. -/

/-- The pages `start` and on are listed, `count` of them. -/
structure Pages (page pagenum shownum start : Int) (count : Nat) (simple : Bool) (m : MultiPage) : Prop where
  block : m.list.map Row.page = consecutive start count
  inside : 1 ≤ start ∧ start + count - 1 ≤ pagenum
  width : (count : Int) = min shownum pagenum
  selected : 1 ≤ page → page ≤ pagenum →
    (m.list.filter fun row => row.selected = 1).map Row.page = [page]
  ends : simple = false → ∃ ends, m.ends = some ends ∧ (ends.firstpage = none ↔ start = 1) ∧
    (ends.endpage = none ↔ start + count - 1 = pagenum)
  prexpage : 1 ≤ page → page ≤ pagenum → (m.prexpage = none ↔ page = 1)
  nextpage : 1 ≤ page → page ≤ pagenum → (m.nextpage = none ↔ page = pagenum)

/-- A link is left out exactly where its condition fails. -/
theorem ite_some_eq_none_iff {α : Type} {p : Prop} [Decidable p] {a : α} :
    (if p then some a else none) = none ↔ ¬ p := by
  by_cases h : p
  · simp [h]
  · simp [h]

/-- A page has the letter `p` and its number in a link. -/
def letterP : Site where
  paramNPage := octets "page"
  encode_seo_parameters uriparams := uriparams.flatMap fun param =>
    match param.2 with
    | .int i => octets "-p" ++ (PhpNumber.text i).map fun c => c.toNat.toUInt8
    | .text s => octets "-p" ++ s
  number _ := 1

example : ((letterP.multiPage [(octets "page", .int 9)] (octets "lake") 97 10 4 (octets "/sale/")).list.map
    Row.page) = [7, 8, 9, 10] := by
  decide +kernel

end RubbishStore.Util.MultiPager
