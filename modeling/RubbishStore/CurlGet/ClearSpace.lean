import RubbishStore.Lib.Replace
import Mathlib.Data.List.Infix

/- `clear_space` of `neitui.php`. Tabs and line ends are taken out first; then, as long
   as there are two spaces side by side or an entity `&nbsp;`, entities become spaces
   and pairs of spaces single ones. A round makes the text shorter, so the loop ends
   (`clearLoop_returns`), and it ends at a text on which nothing is left to be done
   (`clearSpace_spec`). -/
namespace RubbishStore.CurlGet
open RubbishStore.Lib

/-- `strpos($haystack, $needle) !== false` -/
def strpos (haystack needle : Octets) : Bool := haystack.tails.any (Replace.startsWith id needle)

/-- `str_replace` -/
def strReplace (search replace subject : Octets) : Octets :=
  Replace.substitute (Replace.ofWord id search) replace 0 subject

def nbsp : Octets := octets "&nbsp;"

def needsRound (r : Octets) : Bool := strpos r [32, 32] || strpos r nbsp

def clearRound (r : Octets) : Octets := strReplace [32, 32] [32] (strReplace nbsp [32] r)

/-- The `while` loop, for as many tests of its condition; `none` if they do not do. -/
def clearLoop : Nat → Octets → Option Octets
  | 0, _ => none
  | tests + 1, r => if needsRound r then clearLoop tests (clearRound r) else some r

def clearSpace (tests : Nat) (content : Octets) : Option Octets :=
  if content.length = 0 then some content
  else
    let r := ([9, 10, 13] : Octets).foldl (fun r c => strReplace [c] [] r) content
    clearLoop tests r

/-- A text on which nothing is left to be done. -/
structure Clear (r : Octets) : Prop where
  lines : ∀ c ∈ ([9, 10, 13] : Octets), c ∉ r
  spaces : ¬[32, 32] <:+: r
  entities : ¬nbsp <:+: r

theorem strpos_iff {haystack needle : Octets} : strpos haystack needle = true ↔ needle <:+: haystack := by
  have hstarts : ∀ t, Replace.startsWith id needle t = true ↔ needle <+: t := by
    intro t
    rw [Replace.startsWith_iff]
    simp only [List.map_id, exists_eq_left]
  rw [strpos, List.any_eq_true, List.infix_iff_prefix_suffix]
  refine exists_congr fun t => ?_
  rw [List.mem_tails, hstarts, and_comm]

theorem needsRound_iff {r : Octets} : needsRound r = true ↔ [32, 32] <:+: r ∨ nbsp <:+: r := by
  rw [needsRound, Bool.or_eq_true, strpos_iff, strpos_iff]

theorem nbsp_length : nbsp.length = 6 := by
  rw [nbsp, octets]
  rfl

theorem nbsp_ne_nil : nbsp ≠ [] := by
  rw [← List.length_pos_iff, nbsp_length]
  decide

/-- A round that is needed makes the text shorter: an entity goes, or there is none and a
    pair of spaces goes. -/
theorem length_clearRound_lt {r : Octets} (h : needsRound r = true) : (clearRound r).length < r.length := by
  have hentity : [(32 : UInt8)].length < nbsp.length := by
    rw [nbsp_length]
    decide
  have hpair : [(32 : UInt8)].length < [(32 : UInt8), 32].length := by decide
  obtain ⟨hle, hlt⟩ := Replace.length_substitute_word hentity r
  obtain ⟨hle', hlt'⟩ := Replace.length_substitute_word hpair (strReplace nbsp [32] r)
  by_cases hnbsp : nbsp <:+: r
  · exact Nat.lt_of_le_of_lt hle' (hlt hnbsp)
  · have hsame : strReplace nbsp [32] r = r := Replace.substitute_word_eq_self nbsp_ne_nil hnbsp
    have hspaces : [32, 32] <:+: r := (needsRound_iff.mp h).resolve_right hnbsp
    rw [hsame] at hlt'
    rw [clearRound, hsame]
    exact hlt' hspaces

/-- A round puts nothing in but spaces. -/
theorem mem_clearRound {r : Octets} {c : UInt8} (h : c ∈ clearRound r) : c = 32 ∨ c ∈ r := by
  rcases Replace.mem_substitute_word (List.cons_ne_nil _ _) h with h | h
  · exact .inl (List.mem_singleton.mp h)
  · exact (Replace.mem_substitute_word nbsp_ne_nil h).imp_left List.mem_singleton.mp

/-- The loop ends within as many rounds as there are bytes. -/
theorem clearLoop_returns (r : Octets) :
    ∃ result, (∀ tests, r.length < tests → clearLoop tests r = some result) ∧
      needsRound result = false ∧ ∀ c ∈ result, c = 32 ∨ c ∈ r := by
  obtain ⟨n, hn⟩ : ∃ n, r.length = n := ⟨_, rfl⟩
  induction n using Nat.strongRecOn generalizing r with
  | _ n ih =>
    by_cases hround : needsRound r = true
    · have hlt := length_clearRound_lt hround
      obtain ⟨result, hruns, hdone, hmem⟩ := ih _ (hn ▸ hlt) (clearRound r) rfl
      refine ⟨result, fun tests htests => ?_, hdone, fun c hc => ?_⟩
      · obtain ⟨tests, rfl⟩ := Nat.exists_eq_succ_of_ne_zero (Nat.ne_zero_of_lt htests)
        rw [clearLoop, if_pos hround]
        exact hruns tests (by omega)
      · rcases hmem c hc with h | h
        · exact .inl h
        · exact mem_clearRound h
    · refine ⟨r, fun tests htests => ?_, Bool.not_eq_true _ ▸ hround, fun c hc => .inr hc⟩
      obtain ⟨tests, rfl⟩ := Nat.exists_eq_succ_of_ne_zero (Nat.ne_zero_of_lt htests)
      rw [clearLoop, if_neg hround]

/-- Bytes that are taken out one after the other. -/
theorem not_mem_foldl_strReplace {cs : Octets} {content : Octets} {c : UInt8} (h : c ∈ cs ∨ c ∉ content) :
    c ∉ cs.foldl (fun r c => strReplace [c] [] r) content := by
  induction cs generalizing content with
  | nil => exact h.resolve_left List.not_mem_nil
  | cons d cs ih =>
    apply ih
    rw [List.mem_cons, or_assoc, or_left_comm] at h
    refine h.imp_right fun h => ?_
    rcases h with rfl | h
    · exact Replace.not_mem_substitute_single List.not_mem_nil content
    · intro hmem
      exact (Replace.mem_substitute_word (List.cons_ne_nil _ _) hmem).elim List.not_mem_nil h

theorem foldl_strReplace_eq_self {cs : Octets} {content : Octets} (h : ∀ c ∈ cs, c ∉ content) :
    cs.foldl (fun r c => strReplace [c] [] r) content = content := by
  induction cs with
  | nil => rfl
  | cons d cs ih =>
    obtain ⟨hd, hcs⟩ := List.forall_mem_cons.mp h
    have hstands : ¬[d] <:+: content := fun hstands => hd (hstands.subset List.mem_cons_self)
    have hsame : strReplace [d] [] content = content :=
      Replace.substitute_word_eq_self (List.cons_ne_nil d []) hstands
    rw [List.foldl_cons, hsame, ih hcs]

/-- What is clear is left as it is, at the first test. -/
theorem Clear.clearSpace_eq {r : Octets} (h : Clear r) {tests : Nat} (htests : 0 < tests) :
    clearSpace tests r = some r := by
  rw [clearSpace, foldl_strReplace_eq_self h.lines]
  split
  · rfl
  · have hdone : ¬needsRound r = true := by
      rw [needsRound_iff, not_or]
      exact ⟨h.spaces, h.entities⟩
    obtain ⟨tests, rfl⟩ := Nat.exists_eq_succ_of_ne_zero (Nat.ne_zero_of_lt htests)
    exact if_neg hdone

/-- **`clear_space` ends, and with a clear text that it leaves as it is.** -/
theorem clearSpace_spec (content : Octets) :
    ∃ result, (∀ tests, content.length < tests → clearSpace tests content = some result) ∧
      Clear result ∧ ∀ tests, 0 < tests → clearSpace tests result = some result := by
  by_cases hempty : content.length = 0
  · have hclear : Clear content := by
      rw [List.length_eq_zero_iff.mp hempty]
      refine ⟨fun c _ => List.not_mem_nil, fun h => ?_, fun h => ?_⟩
      · exact List.cons_ne_nil _ _ (List.infix_nil.mp h)
      · exact nbsp_ne_nil (List.infix_nil.mp h)
    exact ⟨content, fun tests htests => hclear.clearSpace_eq (Nat.zero_lt_of_lt htests), hclear,
      fun tests => hclear.clearSpace_eq⟩
  · let r := ([9, 10, 13] : Octets).foldl (fun r c => strReplace [c] [] r) content
    have hlength : r.length ≤ content.length := by
      have hone : ∀ c : UInt8, ([] : Octets).length < [c].length := fun c => Nat.zero_lt_one
      have hle : ∀ (c : UInt8) (s : Octets), (strReplace [c] [] s).length ≤ s.length :=
        fun c s => (Replace.length_substitute_word (hone c) s).1
      calc r.length ≤ (strReplace [10] [] (strReplace [9] [] content)).length := hle 13 _
        _ ≤ (strReplace [9] [] content).length := hle 10 _
        _ ≤ content.length := hle 9 content
    obtain ⟨result, hruns, hdone, hmem⟩ := clearLoop_returns r
    have hclear : Clear result := by
      rw [← Bool.not_eq_true, needsRound_iff, not_or] at hdone
      refine ⟨fun c hc hresult => ?_, hdone.1, hdone.2⟩
      rcases hmem c hresult with rfl | h
      · exact absurd hc (by decide)
      · exact not_mem_foldl_strReplace (.inl hc) h
    refine ⟨result, fun tests htests => ?_, hclear, fun tests => hclear.clearSpace_eq⟩
    rw [clearSpace, if_neg hempty]
    exact hruns tests (Nat.lt_of_le_of_lt hlength htests)

/-- Entities that come up when a line end between them is taken out. -/
example : clearSpace 9 (octets "a &nb\nsp; b") = some (octets "a b") := by decide +kernel

end RubbishStore.CurlGet
