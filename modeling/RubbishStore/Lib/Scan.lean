import RubbishStore.Lib.Regex

/- Searching a text for all places where something stands, from left to right, each
   search going on behind the place before. A matcher gives what stands at the front of
   a text and the text behind it. With a text added at the end, what was found stays
   found, and at most one of the places that were passed over becomes the next one
   (`scan_append`). -/
namespace RubbishStore.Lib.Scan

variable {α β : Type}

/-- What is found. The first argument counts the elements that belong to the place
    before. -/
def scan (f : List α → Option (β × List α)) : Nat → List α → List β
  | _, [] => []
  | skip + 1, _ :: s => scan f skip s
  | 0, a :: s =>
    match f (a :: s) with
    | some (b, rest) => b :: scan f (s.length - rest.length) s
    | none => scan f 0 s

/-- The places that are passed over, with the text from there on. -/
def misses (f : List α → Option (β × List α)) : Nat → List α → List (List α)
  | _, [] => []
  | skip + 1, _ :: s => misses f skip s
  | 0, a :: s =>
    match f (a :: s) with
    | some (_, rest) => misses f (s.length - rest.length) s
    | none => (a :: s) :: misses f 0 s

/-- What is found takes at least one element. -/
def Advances (f : List α → Option (β × List α)) : Prop :=
  ∀ s b rest, f s = some (b, rest) → ∃ a u, s = a :: u ++ rest

variable {f : List α → Option (β × List α)}

theorem scan_skip (u s : List α) : scan f u.length (u ++ s) = scan f 0 s := by
  induction u with
  | nil => rfl
  | cons a u ih => exact ih

theorem misses_skip (u s : List α) : misses f u.length (u ++ s) = misses f 0 s := by
  induction u with
  | nil => rfl
  | cons a u ih => exact ih

section
variable (hf : Advances f) {s rest : List α} {b : β}
include hf

theorem scan_hit (h : f s = some (b, rest)) : scan f 0 s = b :: scan f 0 rest := by
  obtain ⟨a, u, rfl⟩ := hf s b rest h
  rw [List.cons_append] at h ⊢
  rw [scan, h]
  dsimp only
  rw [List.length_append, Nat.add_sub_cancel, scan_skip]

theorem misses_hit (h : f s = some (b, rest)) : misses f 0 s = misses f 0 rest := by
  obtain ⟨a, u, rfl⟩ := hf s b rest h
  rw [List.cons_append] at h ⊢
  rw [misses, h]
  dsimp only
  rw [List.length_append, Nat.add_sub_cancel, misses_skip]

end

theorem scan_miss {a : α} {s : List α} (h : f (a :: s) = none) : scan f 0 (a :: s) = scan f 0 s := by
  rw [scan, h]

theorem misses_miss {a : α} {s : List α} (h : f (a :: s) = none) :
    misses f 0 (a :: s) = (a :: s) :: misses f 0 s := by
  rw [misses, h]

/-- From place to place. -/
theorem scan_induction (hf : Advances f) {motive : List α → Prop} (nil : motive [])
    (hit : ∀ s b rest, f s = some (b, rest) → motive rest → motive s)
    (miss : ∀ a s, f (a :: s) = none → motive s → motive (a :: s)) (s : List α) : motive s := by
  obtain ⟨n, hn⟩ : ∃ n, s.length ≤ n := ⟨_, Nat.le_refl _⟩
  induction n generalizing s with
  | zero =>
    rw [List.length_eq_zero_iff.mp (Nat.le_zero.mp hn)]
    exact nil
  | succ n ih =>
    cases h : f s with
    | some found =>
      obtain ⟨b, rest⟩ := found
      obtain ⟨a, u, hsplit⟩ := hf s b rest h
      have hlength : s.length = u.length + rest.length + 1 := by
        rw [hsplit, List.length_append, List.length_cons]
        omega
      exact hit s b rest h (ih rest (by omega))
    | none =>
      cases s with
      | nil => exact nil
      | cons a s => exact miss a s h (ih s (Nat.le_of_succ_le_succ hn))

theorem mem_scan (hf : Advances f) {s : List α} {b : β} (h : b ∈ scan f 0 s) : ∃ t rest, f t = some (b, rest) := by
  induction s using scan_induction hf with
  | nil => cases h
  | hit s c rest hfound ih =>
    rw [scan_hit hf hfound, List.mem_cons] at h
    rcases h with rfl | h
    · exact ⟨s, rest, hfound⟩
    · exact ih h
  | miss a s hnone ih =>
    rw [scan_miss hnone] at h
    exact ih h

theorem scan_eq_nil {s : List α} (h : ∀ t, t <:+ s → f t = none) : scan f 0 s = [] := by
  induction s with
  | nil => rfl
  | cons a s ih =>
    rw [scan_miss (h _ List.suffix_rfl)]
    exact ih fun t ht => h t (ht.trans (List.suffix_cons a s))

theorem none_of_mem_misses (hf : Advances f) {s t : List α} (h : t ∈ misses f 0 s) : t ≠ [] ∧ f t = none := by
  induction s using scan_induction hf with
  | nil => cases h
  | hit s b rest hfound ih =>
    rw [misses_hit hf hfound] at h
    exact ih h
  | miss a s hnone ih =>
    rw [misses_miss hnone, List.mem_cons] at h
    rcases h with rfl | h
    · exact ⟨List.cons_ne_nil a s, hnone⟩
    · exact ih h

/-- **A text that is added at the end** leaves what was found, if no match changes and
    nothing is found behind a place that it completes. The first such place is found
    next; otherwise the search goes on in the added text. -/
theorem scan_append (hf : Advances f) {z : List α}
    (hz : ∀ s b rest, f s = some (b, rest) → f (s ++ z) = some (b, rest ++ z))
    (hlast : ∀ a s, f (a :: s) = none → f (a :: s ++ z) ≠ none → scan f 0 s = []) (s : List α) :
    scan f 0 (s ++ z) = scan f 0 s ++
      match (misses f 0 s).findSome? fun t => f (t ++ z) with
      | some (b, rest) => b :: scan f 0 rest
      | none => scan f 0 z := by
  induction s using scan_induction hf with
  | nil => rfl
  | hit s b rest h ih => rw [scan_hit hf (hz s b rest h), scan_hit hf h, misses_hit hf h, ih, List.cons_append]
  | miss a s h ih =>
    rw [scan_miss h, misses_miss h, List.findSome?_cons]
    cases hnext : f (a :: s ++ z) with
    | some found =>
      obtain ⟨b, rest⟩ := found
      have hnone : scan f 0 s = [] := hlast a s h (by rw [hnext]; exact Option.some_ne_none _)
      rw [scan_hit hf hnext, hnone, List.nil_append]
    | none =>
      rw [List.cons_append] at hnext ⊢
      rw [scan_miss hnext, ih]

/-! Matchers that are regular expressions. -/

section
open Re

/-- The preferred match at the front, its first group and what is behind it. -/
def firstGroup (r : Re α) (s : List α) : Option (List α × List α) :=
  (r.ends ⟨s, []⟩).head?.map fun pos => (pos.groups.getD 0 [], pos.rest)

theorem advances_firstGroup {r : Re α} (hr : r.nullable = false) : Advances (firstGroup r) := by
  intro s b rest h
  obtain ⟨pos, hpos, hfound⟩ := Option.map_eq_some_iff.mp h
  obtain ⟨u, hu, hsplit⟩ := (mem_ends_iff r ⟨s, []⟩ pos.rest).mp ⟨pos, List.mem_of_mem_head? hpos, rfl⟩
  cases u with
  | nil =>
    rw [nullable_of_matches hu rfl] at hr
    cases hr
  | cons a u =>
    refine ⟨a, u, ?_⟩
    rw [← (Prod.mk.inj hfound).2]
    exact hsplit

end

end RubbishStore.Lib.Scan
