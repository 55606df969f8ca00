import RubbishStore.Lib.Md5
import RubbishStore.Lib.Replace
import RubbishStore.Lib.SortedQuery

/- `Util_CallAPI::signature`: the MD5 digest of a text made of the path, the decoded
   parameters of the query in ascending order, the post in the same form and the
   private key, with nothing between these parts. Where names and values hold no
   separator, two requests that agree in one of query and post have one text only if
   they agree in the other as well (`signedText_eq_iff`). Decoded separators, and what
   moves from the query into the post, the text does not show. The order of the
   parameters and of the entries of the post does not matter (`signature_perm`). -/
namespace RubbishStore.Util.CallAPI
open RubbishStore.Lib RubbishStore.Lib.Percent RubbishStore.Lib.SortedQuery

/-- The parts of `parse_url` that are read; one that is absent is empty. -/
structure UrlInfo where
  path : Octets
  query : Octets
  deriving DecidableEq, Repr

/-- A value of a post, as text or as an array or object to be encoded. -/
inductive PostValue (J : Type) where
  | text (s : Octets)
  | nested (value : J)
  deriving DecidableEq, Repr

inductive Post (J : Type) where
  | body (s : Octets)
  | params (ps : List (Octets × PostValue J))
  deriving DecidableEq, Repr

/-- A string in a condition. -/
def truthy (s : Octets) : Bool := s ≠ [] ∧ s ≠ [48]

def requestUri (path : Octets) : Octets :=
  Replace.substitute (Replace.ofWord id (octets "/broker/3.0/")) (octets "/3.0/") 0 path

/-- `$_params`: what follows a second `=` is dropped. -/
def queryParams (query : Octets) : List (Octets × Octets) :=
  if truthy query then
    ofPairs <| (query.splitOn ampersand).map fun v =>
      let tmp := v.splitOn equals
      (tmp.getD 0 [], urldecode (tmp.getD 1 []))
  else []

section
variable {J : Type} (jsonEncode : J → Octets)

def PostValue.toText : PostValue J → Octets
  | .text s => s
  | .nested value => jsonEncode value

/-- `$post_json`, empty for an empty array. A text `name=value` is never numeric, so
    `sort` goes by the bytes. -/
def postText : Post J → Octets
  | .body s => if truthy s then s else []
  | .params ps => sortedQuery (ps.map fun p => (p.1, p.2.toText jsonEncode))

/-- `$finalstr` -/
def signedText (urlInfo : UrlInfo) (post : Post J) (sharedKey : Octets) : Octets :=
  requestUri urlInfo.path ++ sortedQuery (queryParams urlInfo.query) ++ postText jsonEncode post ++
    sharedKey

def signature (urlInfo : UrlInfo) (post : Post J) (sharedKey : Octets) : Octets :=
  Md5.md5 (signedText jsonEncode urlInfo post sharedKey)

end

/-- The parameters of a query as its receiver reads them: a part is split at its first
    `=`, and name and value are decoded. -/
def decodedParams (query : Octets) : List (Octets × Octets) :=
  if query = [] then []
  else ofPairs <| (query.splitOn ampersand).map fun part =>
    let p := splitPair part
    (urldecode p.1, urldecode p.2)

/-- Names stand for themselves, a part has one `=` at most, and no value decodes to a
    text with `&`. -/
@[mk_iff]
structure PlainPart (part : Octets) : Prop where
  percent_name : percent ∉ (splitPair part).1
  plus_name : (43 : UInt8) ∉ (splitPair part).1
  equals_value : equals ∉ (splitPair part).2
  ampersand_value : ampersand ∉ urldecode (splitPair part).2

/-- The query `0` counts as absent. -/
@[mk_iff]
structure PlainQuery (query : Octets) : Prop where
  ne_zero : query ≠ [48]
  parts : ∀ part ∈ query.splitOn ampersand, PlainPart part

instance (part : Octets) : Decidable (PlainPart part) := decidable_of_iff' _ (plainPart_iff part)

instance (query : Octets) : Decidable (PlainQuery query) := decidable_of_iff' _ (plainQuery_iff query)

/-- A post of strings. -/
def Post.ofTexts {J : Type} (ps : List (Octets × Octets)) : Post J :=
  .params (ps.map fun p => (p.1, .text p.2))

theorem urldecode_plain {s : Octets} (hpercent : percent ∉ s) (hplus : (43 : UInt8) ∉ s) :
    urldecode s = s := by
  have hmap : (s.map fun b => if b = 43 then 32 else b) = s := by
    calc (s.map fun b => if b = 43 then 32 else b) = s.map id :=
          List.map_congr_left fun b hb => if_neg fun hb' : b = 43 => hplus (hb' ▸ hb)
      _ = s := List.map_id s
  rw [urldecode, hmap, decode_plain hpercent]

theorem splitOn_two {s t : Octets} (hs : equals ∉ s) (ht : equals ∉ t) :
    (s ++ equals :: t).splitOn equals = [s, t] := by
  have hsplit : ([equals].intercalate [s, t]).splitOn equals = [s, t] :=
    List.splitOn_intercalate equals (by simp [hs, ht]) (List.cons_ne_nil _ _)
  simpa [List.intercalate_cons_cons] using hsplit

theorem splitOn_one {s : Octets} (hs : equals ∉ s) : s.splitOn equals = [s] := by
  have hsplit : ([equals].intercalate [s]).splitOn equals = [s] :=
    List.splitOn_intercalate equals (by simpa using hs) (List.cons_ne_nil _ _)
  rwa [List.intercalate_singleton] at hsplit

/-- With one `=` at most, the parts at every `=` are those at the first. -/
theorem splitOn_part {part : Octets} (h : equals ∉ (splitPair part).2) :
    (part.splitOn equals).getD 0 [] = (splitPair part).1 ∧
      (part.splitOn equals).getD 1 [] = (splitPair part).2 := by
  by_cases hpart : equals ∈ part
  · have hsplit := splitOn_two (equals_not_mem_name part) h
    rw [join_splitPair hpart] at hsplit
    rw [hsplit]
    exact ⟨rfl, rfl⟩
  · have hname : part.takeWhile (· != equals) = part := by
      rw [List.takeWhile_eq_self_iff]
      intro b hb
      exact bne_iff_ne.mpr fun hbe => hpart (hbe ▸ hb)
    rw [splitOn_one hpart]
    simp [splitPair, hname]

/-- What `signature` makes of a plain query is what its receiver reads. -/
theorem queryParams_eq {query : Octets} (h : PlainQuery query) :
    queryParams query = decodedParams query := by
  by_cases hempty : query = []
  · rw [queryParams, decodedParams, if_neg (by simp [truthy, hempty]), if_pos hempty]
  · rw [queryParams, decodedParams, if_pos (by simp [truthy, hempty, h.ne_zero]), if_neg hempty]
    apply congrArg ofPairs
    apply List.map_congr_left
    intro part hpart
    have hplain := h.parts part hpart
    obtain ⟨hname, hvalue⟩ := splitOn_part hplain.equals_value
    simp only [hname, hvalue, urldecode_plain hplain.percent_name hplain.plus_name]

/-- A part between separators holds none. -/
theorem not_mem_of_mem_splitOn {a : UInt8} {s part : Octets} (h : part ∈ s.splitOn a) : a ∉ part := by
  induction s generalizing part with
  | nil =>
    rw [List.splitOn_nil, List.mem_singleton] at h
    rw [h]
    exact List.not_mem_nil
  | cons b s ih =>
    rw [List.splitOn_cons_eq_if_modifyHead] at h
    by_cases hb : b = a
    · rw [if_pos (beq_iff_eq.mpr hb), List.mem_cons] at h
      rcases h with rfl | h
      · exact List.not_mem_nil
      · exact ih h
    · rw [if_neg (by simpa using hb)] at h
      obtain ⟨first, rest, hsplit⟩ := List.exists_cons_of_ne_nil (List.splitOn_ne_nil a s)
      rw [hsplit] at h ih
      rw [List.modifyHead_cons, List.mem_cons] at h
      rcases h with rfl | h
      · rw [List.mem_cons, not_or]
        exact ⟨fun hab => hb hab.symm, ih List.mem_cons_self⟩
      · exact ih (List.mem_cons_of_mem first h)

theorem plain_decodedParams {query : Octets} (h : PlainQuery query) : Plain (decodedParams query) := by
  rw [decodedParams]
  split
  · exact ⟨List.nodup_nil, List.forall_mem_nil _⟩
  · refine ⟨keys_ofPairs _, fun p hp => ?_⟩
    obtain ⟨part, hpart, rfl⟩ := List.mem_map.mp (mem_of_mem_ofPairs hp)
    have hplain := h.parts part hpart
    have hname := urldecode_plain hplain.percent_name hplain.plus_name
    simp only [hname]
    refine ⟨equals_not_mem_name part, fun hmem => ?_, hplain.ampersand_value⟩
    exact not_mem_of_mem_splitOn hpart (List.takeWhile_subset _ hmem)

section
variable {J : Type} (jsonEncode : J → Octets)

theorem postText_ofTexts (ps : List (Octets × Octets)) :
    postText jsonEncode (Post.ofTexts ps) = sortedQuery ps := by
  rw [Post.ofTexts, postText, List.map_map]
  exact congrArg sortedQuery (List.map_id ps)

/-- Requests with one path and one key, plain queries and posts of plain strings. If
    the posts are the same, the texts are the same exactly when the decoded queries
    are, and the other way round. -/
theorem signedText_eq_iff {url₁ url₂ : UrlInfo} {post₁ post₂ : List (Octets × Octets)}
    (sharedKey : Octets) (hpath : url₁.path = url₂.path) (hquery₁ : PlainQuery url₁.query)
    (hquery₂ : PlainQuery url₂.query) (hpost₁ : Plain post₁) (hpost₂ : Plain post₂) :
    let sameQuery := ∀ name,
      (decodedParams url₁.query).lookup name = (decodedParams url₂.query).lookup name
    let samePost := ∀ name, post₁.lookup name = post₂.lookup name
    let sameText := signedText jsonEncode url₁ (Post.ofTexts post₁) sharedKey =
      signedText jsonEncode url₂ (Post.ofTexts post₂) sharedKey
    (samePost → (sameText ↔ sameQuery)) ∧ (sameQuery → (sameText ↔ samePost)) := by
  intro sameQuery samePost sameText
  have hquery := sortedQuery_eq_iff (plain_decodedParams hquery₁) (plain_decodedParams hquery₂)
  have hpost := sortedQuery_eq_iff hpost₁ hpost₂
  simp only [sameText, signedText, hpath, queryParams_eq hquery₁, queryParams_eq hquery₂,
    postText_ofTexts, List.append_cancel_right_eq]
  refine ⟨fun h => ?_, fun h => ?_⟩
  · rw [hpost.mpr h, List.append_cancel_right_eq, List.append_cancel_left_eq, hquery]
  · rw [hquery.mpr h, List.append_cancel_left_eq, hpost]

theorem signedText_ne_small :
    let url := fun query => (⟨octets "/broker/3.0/x", query⟩ : UrlInfo)
    let post := [(octets "c", octets "d")]
    signedText id (url (octets "b=2&a=x+y")) (Post.ofTexts post) (octets "key") ≠
      signedText id (url (octets "a=x&b=2")) (Post.ofTexts post) (octets "key") := by
  intro url post h
  have hiff := @signedText_eq_iff _ id (url (octets "b=2&a=x+y")) (url (octets "a=x&b=2")) post post
    (octets "key") rfl (by decide +kernel) (by decide +kernel) (by decide +kernel) (by decide +kernel)
  have hsame := (hiff.1 fun name => rfl).mp h (octets "a")
  revert hsame
  decide +kernel

end

/-! The order. -/

/-- The name of a parameter, in front of its first `=`. -/
def paramName (param : Octets) : Octets := (param.splitOn equals).getD 0 []

/-- A query counts as absent if its only parameter is empty or `0`. -/
theorem truthy_iff (query : Octets) :
    truthy query = true ↔
      ¬(query.splitOn ampersand).Perm [[]] ∧ ¬(query.splitOn ampersand).Perm [[48]] := by
  have hone : ∀ s : Octets, ampersand ∉ s → (query = s ↔ (query.splitOn ampersand).Perm [s]) := by
    intro s hs
    rw [List.perm_singleton]
    constructor
    · intro h
      have hsplit : ([ampersand].intercalate [s]).splitOn ampersand = [s] :=
        List.splitOn_intercalate ampersand (List.forall_mem_singleton.mpr hs) (List.cons_ne_nil _ _)
      rw [List.intercalate_singleton] at hsplit
      rw [h, hsplit]
    · intro h
      have hjoin : [ampersand].intercalate (query.splitOn ampersand) = query := List.intercalate_splitOn ampersand
      rw [h, List.intercalate_singleton] at hjoin
      exact hjoin.symm
  rw [truthy, decide_eq_true_eq, Ne, Ne, hone [] List.not_mem_nil, hone [48] (by decide)]

theorem queryParams_perm {query query' : Octets} (hnames : ((query.splitOn ampersand).map paramName).Nodup)
    (hperm : (query.splitOn ampersand).Perm (query'.splitOn ampersand)) :
    (queryParams query).Perm (queryParams query') := by
  have htruthy : truthy query = truthy query' := by
    rw [Bool.eq_iff_iff, truthy_iff, truthy_iff, hperm.congr_left, hperm.congr_left]
  have hnames' : ((query'.splitOn ampersand).map paramName).Nodup := (hperm.map paramName).nodup_iff.mp hnames
  rw [queryParams, queryParams, htruthy]
  split
  · rw [ofPairs_nodup (by rwa [assocKeys, List.map_map]), ofPairs_nodup (by rwa [assocKeys, List.map_map])]
    exact hperm.map _
  · exact List.Perm.refl []

section
variable {J : Type} (jsonEncode : J → Octets)

/-- **The signature does not depend on the order** of the parameters, if their names are
    different, nor on that of the post's entries. -/
theorem signature_perm (path sharedKey : Octets) {query query' : Octets}
    {post post' : List (Octets × PostValue J)} (hnames : ((query.splitOn ampersand).map paramName).Nodup)
    (hquery : (query.splitOn ampersand).Perm (query'.splitOn ampersand)) (hpost : post.Perm post') :
    signature jsonEncode ⟨path, query⟩ (.params post) sharedKey =
      signature jsonEncode ⟨path, query'⟩ (.params post') sharedKey := by
  have hparams := sortedQuery_perm (queryParams_perm hnames hquery)
  have hentries := sortedQuery_perm (hpost.map fun p => (p.1, p.2.toText jsonEncode))
  rw [signature, signature, signedText, signedText, hparams, postText, hentries, ← postText]

end

theorem signature_perm_small :
    let post := [(octets "p", PostValue.text (octets "1")), (octets "o", .nested ())]
    signature (fun _ => octets "[]") ⟨octets "/x", octets "b=2&a=x+y"⟩ (.params post) (octets "key") =
      signature (fun _ => octets "[]") ⟨octets "/x", octets "a=x+y&b=2"⟩ (.params post.reverse) (octets "key") := by
  refine signature_perm _ _ _ ?_ ?_ (List.reverse_perm _).symm
  · decide +kernel
  · decide +kernel

/-! What the text does not show. -/

/-- Two queries and a name whose decoded values differ: an encoded separator, an
    encoded name, a second `=`, and the query `0`. -/
def collidingQueries : List (Octets × Octets × Octets) :=
  [(octets "a=1%26b%3D2", octets "a=1&b=2", octets "a"),
   (octets "%61=1&a=2", octets "a=2&%61=1", octets "a"),
   (octets "a=1=2", octets "a=1=3", octets "a"),
   (octets "0", [], octets "0")]

/-- Two posts that differ at `a`: a separator in a value or in a name, and a value that
    reads like an encoded one. -/
def collidingPosts : List (List (Octets × PostValue Unit) × List (Octets × PostValue Unit)) :=
  [([(octets "a", .text (octets "1&b=2"))], [(octets "a", .text (octets "1")), (octets "b", .text (octets "2"))]),
   ([(octets "a=b", .text (octets "c"))], [(octets "a", .text (octets "b=c"))]),
   ([(octets "a", .nested ())], [(octets "a", .text (octets "[]"))])]

/-- The third case moves a `1` from the query into the post. -/
theorem signedText_collisions :
    let text := fun query post => signedText (fun _ => octets "[]") ⟨octets "/x", query⟩ post (octets "key")
    (∀ c ∈ collidingQueries, text c.1 (.params []) = text c.2.1 (.params []) ∧
      (decodedParams c.1).lookup c.2.2 ≠ (decodedParams c.2.1).lookup c.2.2) ∧
    (∀ c ∈ collidingPosts, text [] (.params c.1) = text [] (.params c.2) ∧
      c.1.lookup (octets "a") ≠ c.2.lookup (octets "a")) ∧
    text (octets "a=1") (.params [(octets "b", .text (octets "2"))]) =
      text (octets "a=") (.params [(octets "1b", .text (octets "2"))]) ∧
    (decodedParams (octets "a=1")).lookup (octets "a") ≠ (decodedParams (octets "a=")).lookup (octets "a") := by
  decide +kernel

end RubbishStore.Util.CallAPI
