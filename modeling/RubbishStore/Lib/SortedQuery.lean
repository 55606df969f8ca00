import RubbishStore.Lib.Assoc
import RubbishStore.Lib.Percent
import Mathlib.Data.List.Induction
import Mathlib.Data.List.Sort
import Mathlib.Tactic.MkIffOfInductiveProp

/- The text of a map: its `name=value` pairs in ascending order, joined by `&`. Two
   maps whose names hold no `=` or `&` and whose values hold no `&` have the same text
   exactly when they are the same map (`sortedQuery_eq_iff`). `ofPairs` is the map of
   a list of pairs, a later pair in the place of an earlier one. -/
namespace RubbishStore.Lib.SortedQuery
open RubbishStore.Lib.Percent

def pairText (p : Octets × Octets) : Octets := p.1 ++ equals :: p.2

/-- Byte by byte. -/
def sortTexts (texts : List Octets) : List Octets := texts.insertionSort (· ≤ ·)

def sortedQuery (pairs : List (Octets × Octets)) : Octets :=
  [ampersand].intercalate (sortTexts (pairs.map pairText))

def ofPairs (pairs : List (Octets × Octets)) : List (Octets × Octets) :=
  pairs.foldl (fun m p => assocSet m p.1 p.2) []

/-- A map whose text can be read back. -/
@[mk_iff]
structure Plain (pairs : List (Octets × Octets)) : Prop where
  keys : (assocKeys pairs).Nodup
  parts : ∀ p ∈ pairs, equals ∉ p.1 ∧ ampersand ∉ p.1 ∧ ampersand ∉ p.2

instance (pairs : List (Octets × Octets)) : Decidable (Plain pairs) :=
  decidable_of_iff' _ (plain_iff pairs)

theorem sortTexts_pairwise (texts : List Octets) : (sortTexts texts).Pairwise (· ≤ ·) :=
  List.pairwise_insertionSort (· ≤ ·) texts

/-- Sorting forgets the order, and nothing else. -/
theorem sortTexts_eq_iff {s t : List Octets} : sortTexts s = sortTexts t ↔ s.Perm t := by
  have hs : (sortTexts s).Perm s := List.perm_insertionSort _ _
  have ht : (sortTexts t).Perm t := List.perm_insertionSort _ _
  refine ⟨fun h => ?_, fun h => ?_⟩
  · calc s.Perm (sortTexts s) := hs.symm
      _ = sortTexts t := h
      _ |>.Perm t := ht
  · refine List.Perm.eq_of_pairwise (fun a b _ _ => List.le_antisymm) (sortTexts_pairwise s)
      (sortTexts_pairwise t) ?_
    exact hs.trans (h.trans ht.symm)

theorem sortedQuery_perm {s t : List (Octets × Octets)} (h : s.Perm t) : sortedQuery s = sortedQuery t :=
  congrArg [ampersand].intercalate (sortTexts_eq_iff.mpr (h.map pairText))

/-- Joined texts that are not empty and hold no separator can be told apart. -/
theorem joined_injective {s t : List Octets} (hs : ∀ x ∈ s, x ≠ [] ∧ ampersand ∉ x)
    (ht : ∀ x ∈ t, x ≠ [] ∧ ampersand ∉ x)
    (h : [ampersand].intercalate s = [ampersand].intercalate t) : s = t := by
  have hnil : ∀ u : List Octets, (∀ x ∈ u, x ≠ [] ∧ ampersand ∉ x) →
      [ampersand].intercalate u = [] → u = [] := by
    intro u hu hempty
    match u with
    | [] => rfl
    | [x] =>
      rw [List.intercalate_singleton] at hempty
      exact absurd hempty (hu x List.mem_cons_self).1
    | x :: y :: u => simp [List.intercalate_cons_cons] at hempty
  by_cases hempty : s = []
  · subst hempty
    exact (hnil t ht h.symm).symm
  · have htne : t ≠ [] := by
      rintro rfl
      exact hempty (hnil s hs h)
    exact intercalate_injective hempty htne (fun x hx => (hs x hx).2) (fun x hx => (ht x hx).2) h

theorem mem_iff_lookup {pairs : List (Octets × Octets)} (h : (assocKeys pairs).Nodup)
    (p : Octets × Octets) : p ∈ pairs ↔ pairs.lookup p.1 = some p.2 := by
  constructor
  · exact fun hmem => lookup_of_mem h hmem
  · intro hlookup
    obtain ⟨before, after, hpairs, -⟩ := List.lookup_eq_some_iff.mp hlookup
    rw [hpairs]
    exact List.mem_append_right before List.mem_cons_self

/-- The same map, in another order. -/
theorem perm_iff_lookup {s t : List (Octets × Octets)} (hs : (assocKeys s).Nodup)
    (ht : (assocKeys t).Nodup) : s.Perm t ↔ ∀ name, s.lookup name = t.lookup name := by
  rw [List.perm_ext_iff_of_nodup hs.of_map ht.of_map]
  constructor
  · intro h name
    apply Option.ext
    intro value
    rw [← mem_iff_lookup hs (name, value), ← mem_iff_lookup ht (name, value), h]
  · intro h p
    rw [mem_iff_lookup hs, mem_iff_lookup ht, h]

theorem map_pairText_perm {s t : List (Octets × Octets)} (hs : Plain s) (ht : Plain t) :
    (s.map pairText).Perm (t.map pairText) ↔ s.Perm t := by
  refine ⟨fun h => ?_, List.Perm.map pairText⟩
  have hsplit : ∀ u : List (Octets × Octets), Plain u → (u.map pairText).map splitPair = u := by
    intro u hu
    rw [List.map_map]
    calc u.map (splitPair ∘ pairText) = u.map id :=
          List.map_congr_left fun p hp => splitPair_join (hu.parts p hp).1 p.2
      _ = u := List.map_id u
  have hperm := h.map splitPair
  rwa [hsplit s hs, hsplit t ht] at hperm

theorem sortedQuery_eq_iff {s t : List (Octets × Octets)} (hs : Plain s) (ht : Plain t) :
    sortedQuery s = sortedQuery t ↔ ∀ name, s.lookup name = t.lookup name := by
  have hparts : ∀ u : List (Octets × Octets), Plain u →
      ∀ x ∈ sortTexts (u.map pairText), x ≠ [] ∧ ampersand ∉ x := by
    intro u hu x hx
    obtain ⟨p, hp, rfl⟩ := List.mem_map.mp ((List.perm_insertionSort _ _).subset hx)
    obtain ⟨-, hname, hvalue⟩ := hu.parts p hp
    refine ⟨by simp [pairText], ?_⟩
    rw [pairText, List.mem_append, List.mem_cons, not_or, not_or]
    exact ⟨hname, by decide, hvalue⟩
  rw [← perm_iff_lookup hs.keys ht.keys, ← map_pairText_perm hs ht, ← sortTexts_eq_iff]
  exact ⟨joined_injective (hparts s hs) (hparts t ht), fun h => congrArg [ampersand].intercalate h⟩

/-! The map of a list of pairs. -/

/-- The last pair of a name counts. -/
theorem lookup_ofPairs (pairs : List (Octets × Octets)) (name : Octets) :
    (ofPairs pairs).lookup name = pairs.reverse.lookup name := by
  suffices hfold : ∀ m : List (Octets × Octets),
      (pairs.foldl (fun m p => assocSet m p.1 p.2) m).lookup name =
        (pairs.reverse.lookup name).or (m.lookup name) by
    rw [ofPairs, hfold, List.lookup_nil, Option.or_none]
  induction pairs with
  | nil => exact fun m => rfl
  | cons p pairs ih =>
    intro m
    rw [List.foldl_cons, ih, List.reverse_cons, List.lookup_append, lookup_set, lookup_cons_ite]
    by_cases h : p.1 = name
    · rw [if_pos h, if_pos h, Option.or_assoc]
      rfl
    · rw [if_neg h, if_neg h, List.lookup_nil, Option.or_none]

theorem keys_ofPairs (pairs : List (Octets × Octets)) : (assocKeys (ofPairs pairs)).Nodup := by
  suffices hfold : ∀ m : List (Octets × Octets), (assocKeys m).Nodup →
      (assocKeys (pairs.foldl (fun m p => assocSet m p.1 p.2) m)).Nodup from hfold [] List.nodup_nil
  induction pairs with
  | nil => exact fun m hm => hm
  | cons p pairs ih =>
    intro m hm
    apply ih
    rw [assocKeys_set]
    split
    · exact hm
    · next h =>
      rw [List.nodup_append]
      refine ⟨hm, List.nodup_singleton _, ?_⟩
      rintro a ha b hb rfl
      rw [List.mem_singleton] at hb
      exact h (hb ▸ ha)

/-- Pairs with different names are a map already. -/
theorem ofPairs_nodup {pairs : List (Octets × Octets)} (h : (assocKeys pairs).Nodup) : ofPairs pairs = pairs := by
  induction pairs using List.reverseRecOn with
  | nil => rfl
  | append_singleton pairs p ih =>
    rw [assocKeys, List.map_append, List.map_singleton, List.nodup_append] at h
    have hnew : p.1 ∉ assocKeys pairs := fun hmem => h.2.2 p.1 hmem p.1 List.mem_cons_self rfl
    rw [ofPairs, List.foldl_concat, ← ofPairs, ih h.1, assocSet_new hnew]

/-- Every pair of the map is one of the list. -/
theorem mem_of_mem_ofPairs {pairs : List (Octets × Octets)} {p : Octets × Octets}
    (h : p ∈ ofPairs pairs) : p ∈ pairs := by
  have hlookup := (mem_iff_lookup (keys_ofPairs pairs) p).mp h
  rw [lookup_ofPairs] at hlookup
  obtain ⟨before, after, hpairs, -⟩ := List.lookup_eq_some_iff.mp hlookup
  rw [← List.mem_reverse, hpairs]
  exact List.mem_append_right before List.mem_cons_self

end RubbishStore.Lib.SortedQuery
