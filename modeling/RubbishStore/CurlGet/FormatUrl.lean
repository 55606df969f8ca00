import RubbishStore.CurlGet.ClearSpace
import RubbishStore.Lib.Descent
import RubbishStore.Lib.Runs
import RubbishStore.Lib.Scan

/- `format_url` of `neitui.php`, which completes the links of a page. One path variable
   goes through the loop over all links: a link that climbs with `../` leaves it where
   it has climbed to, and the next one goes on from there. A link is resolved as it is
   on its own exactly if it does not climb, or none before it has climbed, or it climbs
   to the top anyway (`resolves_alone_iff`). -/
namespace RubbishStore.CurlGet
open RubbishStore.Lib

/-- What `parse_url` finds of a page's address; a part that is absent is empty. -/
structure PaseUrl where
  scheme : Octets
  host : Octets
  path : Octets

/-! The patterns. -/

/-- A literal in either case. -/
def lit (s : String) : Re UInt8 := .literal lower (octets s)

/-- `[^\s]` -/
def notSpace : Re UInt8 := .atom fun b => !(b = 32 || b = 9 || b = 10 || b = 12 || b = 13)

/-- `[^>]` -/
def notGt : Re UInt8 := .atom (· != 62)

/-- `<(name)[^>]+attr=([^\s]+)[^>]*>`, every repetition as short as possible. -/
def tagWith (name : Re UInt8) (attr : String) : Re UInt8 :=
  .seq (lit "<") <| .seq (.group name) <| .seq (.plus false notGt) <| .seq (lit attr) <|
    .seq (.group (.plus false notSpace)) <| .seq (.star false notGt) (lit ">")

/-- `/<(img|script)[^>]+src=([^\s]+)[^>]*>|<(a|link)[^>]+href=([^\s]+)[^>]*>/iU` -/
def linkPattern : Re UInt8 :=
  .alt (tagWith (.alt (lit "img") (lit "script")) "src=") (tagWith (.alt (lit "a") (lit "link")) "href=")

/-- `$matchs[0]`, from `preg_match_all` -/
def links (html : Octets) : List Octets :=
  Scan.scan (fun s => (Re.matchLength linkPattern s).map fun length => (s.take length, s.drop length)) 0 html

/-- `(.+(href|src)=)([^ >]+)(.+?)` -/
def argsPattern : Re UInt8 :=
  let dot : Re UInt8 := .atom (· != 10)
  .seq (.group (.seq (.plus true dot) (.seq (.group (.alt (lit "href") (lit "src"))) (lit "=")))) <|
    .seq (.group (.plus true (.atom fun b => b != 32 && b != 62))) (.group (.plus false dot))

/-- `$args[1]`, `$args[3]` and `$args[4]`, with `^` and `$` around the pattern. The group
    inside the first closes before it. -/
def args (link : Octets) : Option (Octets × Octets × Octets) :=
  let last := ((argsPattern.ends ⟨link, []⟩).find? fun pos => pos.rest = [] ∨ pos.rest = [10])
  last.map fun pos => (pos.groups.getD 1 [], pos.groups.getD 2 [], pos.groups.getD 3 [])

/-! Paths. -/

/-- `dirname`: the last name goes, and the slashes in front of it and behind it. -/
def dirname (path : Octets) : Octets :=
  if path = [] then []
  else
    -- from the end: the slashes behind the last name, the name, the slashes in front
    let name := path.reverse.dropWhile (· == 47)
    if name = [] then [47]
    else
      let slashes := name.dropWhile (· != 47)
      if slashes = [] then [46]
      else
        let parent := slashes.dropWhile (· == 47)
        if parent = [] then [47] else parent.reverse

/-- `rtrim($s, '\\/')` -/
def rtrim (s : Octets) : Octets := (s.reverse.dropWhile fun b => b = 92 || b = 47).reverse

def trim (s : Octets) (b : UInt8) : Octets := ((s.dropWhile (· == b)).reverse.dropWhile (· == b)).reverse

def baseHost (base : PaseUrl) : Octets := base.scheme ++ octets "://" ++ base.host

def basePath (base : PaseUrl) : Octets :=
  if 35 ∈ base.path then rtrim (dirname (base.path.takeWhile (· != 35))) else rtrim (dirname base.path)

def baseUrl (base : PaseUrl) : Octets := baseHost base ++ basePath base

def dots : Octets := [46, 46, 47]

/-- One step up from `$base_path`. -/
def parent (path : Octets) : Octets :=
  if 0 < path.length then
    let path := dirname path
    if path = [47] then [] else path
  else path

/-- The inner `while` loop, on the link and `$base_path`. An offset of `-0` leaves all of
    a text, so the last step is taken off by the `break`. -/
def climb : Octets → Octets → Octets × Octets
  | a :: b :: c :: rest, path =>
    if [a, b, c] = dots then
      -- `substr($url, -(strlen($url)-3))`
      let url := if rest = [] then dots else rest
      if url = dots then ([], parent path) else climb rest (parent path)
    else (a :: b :: c :: rest, path)
  | url, path => (url, path)

/-! The loop over the links. -/

/-- A URL that is complete, a mail address or a script. -/
def skipped (url : Octets) : Bool :=
  [octets "http://", octets "https://", octets "ftp://", octets "mailto:", octets "javascript:"].any fun word =>
    Replace.startsWith lower word url

def begins (word url : Octets) : Bool := Replace.startsWith id word url

section
variable (base : PaseUrl)

/-- The URL of a link, unless it is left as it is, and `$base_path` behind it. -/
def resolve (path url : Octets) : Option Octets × Octets :=
  if skipped url then (none, path)
  -- an absolute path
  else if begins [47] url then (some (baseHost base ++ url), path)
  else if begins dots url then
    let climbed := climb url path
    (some (baseHost base ++ climbed.2 ++ [47] ++ climbed.1), climbed.2)
  -- the directory of the page, which was put together before the loop
  else if begins [46, 47] url then (some (baseUrl base ++ [47] ++ url.drop 2), path)
  else (some (baseUrl base ++ [47] ++ url), path)

/-- `trim(trim($args[3],'"'),"'")` -/
def urlOf (arg : Octets) : Octets := trim (trim arg 34) 39

/-- A round, on the text and `$base_path`. -/
def formatLink (s : Octets × Octets) (link : Octets) : Octets × Octets :=
  match args link with
  | none => s
  | some (front, arg, back) =>
    let resolved := resolve base s.2 (urlOf arg)
    match resolved.1 with
    | none => (s.1, resolved.2)
    | some url => (strReplace link (front ++ [34] ++ url ++ [34] ++ back) s.1, resolved.2)

def formatUrl (html : Octets) : Octets := (run (formatLink base) (html, basePath base) (links html)).1

/-- Every link is resolved as on its own, from the directory of the page. -/
def ResolvesAlone (html : Octets) : Prop :=
  AtEach (formatLink base)
    (fun s link => ∀ front arg back, args link = some (front, arg, back) →
      (resolve base s.2 (urlOf arg)).1 = (resolve base (basePath base) (urlOf arg)).1)
    (html, basePath base) (links html)

end

/-- The steps that the inner loop takes. Of a link that is nothing but two steps or more
    it takes one less. -/
def steps : Octets → Nat
  | a :: b :: c :: rest =>
    if [a, b, c] = dots then if rest = [] ∨ rest = dots then 1 else steps rest + 1
    else 0
  | _ => 0

/-- The steps of a link. -/
def stepsOf (link : Octets) : Nat :=
  match args link with
  | none => 0
  | some (_, arg, _) => steps (urlOf arg)

/-- There is no way up. -/
def Top (path : Octets) : Prop := path = [] ∨ path = [46]

instance (path : Octets) : Decidable (Top path) := inferInstanceAs (Decidable (_ ∨ _))

/-! Paths that go up. -/

theorem dirname_cases {path : Octets} (h : path ≠ []) :
    dirname path = [47] ∨ dirname path = [46] ∨ (dirname path).length < path.length := by
  rw [dirname, if_neg h]
  dsimp only
  split
  · exact .inl rfl
  · next hname =>
    split
    · exact .inr (.inl rfl)
    · split
      · exact .inl rfl
      · -- the last name is not empty
        refine .inr (.inr ?_)
        have hslash := List.head_dropWhile_not (· == 47) hname
        rw [List.length_reverse]
        generalize hlast : path.reverse.dropWhile (· == 47) = name at hname hslash ⊢
        have hle := (List.dropWhile_suffix (l := path.reverse) (· == 47)).length_le
        rw [hlast, List.length_reverse] at hle
        cases name with
        | nil => exact absurd rfl hname
        | cons b name =>
          have hb : (b != 47) = true := by simpa using hslash
          rw [List.dropWhile_cons_of_pos (p := (· != 47)) hb]
          have hslashes := (List.dropWhile_suffix (l := name) (· != 47)).length_le
          have hparent := (List.dropWhile_suffix (l := name.dropWhile (· != 47)) (· == 47)).length_le
          rw [List.length_cons] at hle
          omega

theorem parent_cases {path : Octets} (h : ¬Top path) :
    parent path = [] ∨ parent path = [46] ∨ (parent path).length < path.length := by
  have hne : path ≠ [] := fun hnil => h (.inl hnil)
  rw [parent, if_pos (List.length_pos_iff.mpr hne)]
  dsimp only
  split
  · exact .inl rfl
  · next hroot => exact .inr ((dirname_cases hne).resolve_left hroot)

theorem parent_top {path : Octets} (h : Top path) : parent path = path := by
  rcases h with rfl | rfl
  · rfl
  · rfl

/-- What is left to climb. -/
def height (path : Octets) : Nat := if Top path then 0 else path.length + 1

theorem height_parent_lt {path : Octets} (h : ¬Top path) : height (parent path) < height path := by
  have htop : height path = path.length + 1 := if_neg h
  rw [htop, height]
  split
  · exact Nat.succ_pos _
  · next hnot =>
    rcases parent_cases h with hnil | hdot | hlt
    · exact absurd (.inl hnil) hnot
    · exact absurd (.inr hdot) hnot
    · exact Nat.succ_lt_succ hlt

theorem parent_eq_self_iff {path : Octets} : parent path = path ↔ Top path := by
  refine ⟨fun h => ?_, parent_top⟩
  by_contra htop
  have hlt := height_parent_lt htop
  rw [h] at hlt
  exact Nat.lt_irrefl _ hlt

/-- Steps from another directory up lead to the same one only from none or to the top. -/
theorem iterate_parent_eq_iff {m n : Nat} {path : Octets} :
    parent^[m] (parent^[n] path) = parent^[m] path ↔ n = 0 ∨ Top (parent^[m] path) := by
  rw [← parent_eq_self_iff]
  apply @Descent.iterate_add_eq_iff _ _ height
  intro path
  by_cases h : Top path
  · exact .inl (parent_top h)
  · exact .inr (height_parent_lt h)

/-! One link. -/

theorem begins_dots_iff {url : Octets} : begins dots url = true ↔ ∃ rest, url = dots ++ rest := by
  rw [begins, Replace.startsWith_iff]
  simp only [List.map_id, exists_eq_left]
  exact ⟨fun ⟨rest, h⟩ => ⟨rest, h.symm⟩, fun ⟨rest, h⟩ => ⟨rest, h.symm⟩⟩

/-- What is left of a link depends on the link only, and the path goes up by its steps. -/
theorem climb_eq (url path : Octets) : climb url path = ((climb url []).1, parent^[steps url] path) := by
  have hall : ∀ path path', (climb url path).1 = (climb url path').1 ∧
      (climb url path).2 = parent^[steps url] path := by
    induction url using steps.induct with
    | case1 a b c rest hdots hlast =>
      intro path path'
      have hurl : (if rest = [] then dots else rest) = dots := by
        rcases hlast with rfl | rfl
        · rfl
        · rfl
      rw [steps, if_pos hdots, if_pos hlast, climb, if_pos hdots, climb, if_pos hdots]
      dsimp only
      rw [if_pos hurl, if_pos hurl]
      exact ⟨rfl, rfl⟩
    | case2 a b c rest hdots hlast ih =>
      intro path path'
      rw [not_or] at hlast
      have hurl : ¬(if rest = [] then dots else rest) = dots := by
        rw [if_neg hlast.1]
        exact hlast.2
      rw [steps, if_pos hdots, if_neg (not_or.mpr hlast), climb, if_pos hdots, climb, if_pos hdots]
      dsimp only
      rw [if_neg hurl, if_neg hurl]
      exact ih (parent path) (parent path')
    | case3 a b c rest hdots =>
      intro path path'
      rw [steps, if_neg hdots, climb, if_neg hdots, climb, if_neg hdots]
      exact ⟨rfl, rfl⟩
    | case4 url hshort =>
      intro path path'
      match url with
      | [] => exact ⟨rfl, rfl⟩
      | [a] => exact ⟨rfl, rfl⟩
      | [a, b] => exact ⟨rfl, rfl⟩
      | a :: b :: c :: rest => exact absurd rfl (hshort a b c rest)
  exact Prod.ext (hall path []).1 (hall path []).2

theorem steps_eq_zero_iff {url : Octets} : steps url = 0 ↔ ¬begins dots url = true := by
  rw [begins_dots_iff]
  constructor
  · rintro hzero ⟨rest, rfl⟩
    have hsteps : steps (dots ++ rest) = if rest = [] ∨ rest = dots then 1 else steps rest + 1 := rfl
    rw [hsteps] at hzero
    split at hzero
    · cases hzero
    · cases hzero
  · intro h
    match url with
    | [] => rfl
    | [a] => rfl
    | [a, b] => rfl
    | a :: b :: c :: rest =>
      have hdots : ¬[a, b, c] = dots := fun hdots => h ⟨rest, by rw [← hdots]; rfl⟩
      rw [steps, if_neg hdots]

section
variable {base : PaseUrl}

theorem skipped_dots (rest : Octets) : skipped (dots ++ rest) = false := by
  simp [skipped, Replace.startsWith, octets, dots, lower]

theorem resolve_dots {url : Octets} (h : begins dots url = true) (path : Octets) :
    resolve base path url =
      (some (baseHost base ++ parent^[steps url] path ++ [47] ++ (climb url []).1), parent^[steps url] path) := by
  obtain ⟨rest, rfl⟩ := begins_dots_iff.mp h
  have hskipped : ¬skipped (dots ++ rest) = true := by
    rw [skipped_dots]
    exact Bool.false_ne_true
  have hroot : ¬begins [47] (dots ++ rest) = true := Bool.false_ne_true
  rw [resolve, if_neg hskipped, if_neg hroot, if_pos h, climb_eq]

/-- Any other link does not look at the path, and leaves it. -/
theorem resolve_other {url : Octets} (h : ¬begins dots url = true) (path path' : Octets) :
    (resolve base path url).1 = (resolve base path' url).1 ∧ (resolve base path url).2 = path := by
  rw [resolve, resolve, if_neg h, if_neg h]
  split
  · exact ⟨rfl, rfl⟩
  · split
    · exact ⟨rfl, rfl⟩
    · split
      · exact ⟨rfl, rfl⟩
      · exact ⟨rfl, rfl⟩

/-- A link is resolved as from another directory up only if that makes no difference to
    where its steps lead. -/
theorem resolve_iff (n : Nat) (path url : Octets) :
    (resolve base (parent^[n] path) url).1 = (resolve base path url).1 ↔
      (begins dots url = true → n = 0 ∨ Top (parent^[steps url] path)) := by
  by_cases h : begins dots url = true
  · rw [resolve_dots h, resolve_dots h]
    dsimp only
    rw [Option.some.injEq, List.append_cancel_right_eq, List.append_cancel_right_eq, List.append_cancel_left_eq,
      iterate_parent_eq_iff, forall_prop_of_true h]
  · exact iff_of_true (resolve_other h _ _).1 fun hdots => absurd hdots h

/-! The links in front of one. -/

theorem formatLink_snd (s : Octets × Octets) (link : Octets) :
    (formatLink base s link).2 = parent^[stepsOf link] s.2 := by
  rw [formatLink, stepsOf]
  split
  · rfl
  · next front arg back hargs =>
    have hresolve : (resolve base s.2 (urlOf arg)).2 = parent^[steps (urlOf arg)] s.2 := by
      by_cases h : begins dots (urlOf arg) = true
      · rw [resolve_dots h]
      · rw [steps_eq_zero_iff.mpr h]
        exact (resolve_other h s.2 s.2).2
    dsimp only
    split
    · exact hresolve
    · exact hresolve

/-- The steps of all links. -/
def climbed : List Octets → Nat
  | [] => 0
  | link :: rest => climbed rest + stepsOf link

theorem run_formatLink_snd (s : Octets × Octets) (before : List Octets) :
    (run (formatLink base) s before).2 = parent^[climbed before] s.2 := by
  induction before generalizing s with
  | nil => rfl
  | cons link before ih => rw [run_cons, ih, formatLink_snd, climbed, Function.iterate_add_apply]

theorem climbed_eq_zero_iff (before : List Octets) : climbed before = 0 ↔ ∀ link ∈ before, stepsOf link = 0 := by
  induction before with
  | nil => exact iff_of_true rfl (List.forall_mem_nil _)
  | cons link before ih => rw [climbed, Nat.add_eq_zero_iff, ih, List.forall_mem_cons, and_comm]

end

/-- The text with every link resolved from the directory of the page. -/
def formatAlone (base : PaseUrl) (html : Octets) : Octets :=
  (links html).foldl (fun html link => (formatLink base (html, basePath base) link).1) html

/-- Then the text has each link as it is on its own. -/
theorem formatUrl_eq_alone {base : PaseUrl} {html : Octets} (h : ResolvesAlone base html) :
    formatUrl base html = formatAlone base html := by
  rw [ResolvesAlone] at h
  rw [formatUrl, formatAlone]
  generalize links html = ls at h ⊢
  suffices hrun : ∀ s, AtEach (formatLink base)
      (fun s link => ∀ front arg back, args link = some (front, arg, back) →
        (resolve base s.2 (urlOf arg)).1 = (resolve base (basePath base) (urlOf arg)).1) s ls →
      (run (formatLink base) s ls).1 =
        ls.foldl (fun html link => (formatLink base (html, basePath base) link).1) s.1 from hrun _ h
  clear h
  induction ls with
  | nil => exact fun s _ => rfl
  | cons link ls ih =>
    intro s hs
    have hlink : (formatLink base s link).1 = (formatLink base (s.1, basePath base) link).1 := by
      rw [formatLink, formatLink]
      split
      · rfl
      · next front arg back hargs =>
        dsimp only
        rw [hs.1 front arg back hargs]
        split
        · rfl
        · rfl
    rw [run_cons, ih _ hs.2, List.foldl_cons, hlink]

end RubbishStore.CurlGet
