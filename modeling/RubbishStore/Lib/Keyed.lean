import Mathlib.Data.List.Nodup
import Mathlib.Data.List.Perm.Basic

/- Lists of rows with a key each, seen as finite maps. `findKey` is the map; with
   distinct keys it does not depend on the order of the rows, and filtering,
   editing and appending rows are the obvious operations on it. -/
namespace RubbishStore.Lib

section
variable {α κ : Type} {key : α → κ}

/-- No two rows have one key. -/
def DistinctKeys (key : α → κ) (rows : List α) : Prop := (rows.map key).Nodup

theorem DistinctKeys.cons {r : α} {rows : List α} :
    DistinctKeys key (r :: rows) ↔ (∀ r' ∈ rows, key r' ≠ key r) ∧ DistinctKeys key rows := by
  simp [DistinctKeys, List.nodup_cons]

theorem DistinctKeys.filter {rows : List α} (h : DistinctKeys key rows) (p : α → Bool) :
    DistinctKeys key (rows.filter p) := h.sublist (List.filter_sublist.map key)

theorem DistinctKeys.perm {rows rows' : List α} (h : DistinctKeys key rows) (hp : rows'.Perm rows) :
    DistinctKeys key rows' := (hp.map key).nodup_iff.mpr h

variable [DecidableEq κ]

/-- The row of a key. -/
def findKey (key : α → κ) (rows : List α) (k : κ) : Option α := rows.find? fun r => key r = k

@[simp] theorem findKey_nil (k : κ) : findKey key [] k = none := rfl

theorem findKey_cons (r : α) (rows : List α) (k : κ) :
    findKey key (r :: rows) k = if key r = k then some r else findKey key rows k := by
  by_cases h : key r = k <;> simp [findKey, h]

theorem key_of_findKey {rows : List α} {k : κ} {r : α} (h : findKey key rows k = some r) :
    key r = k := by
  simpa using List.find?_some h

theorem mem_of_findKey {rows : List α} {k : κ} {r : α} (h : findKey key rows k = some r) :
    r ∈ rows := List.mem_of_find?_eq_some h

theorem findKey_eq_none {rows : List α} {k : κ} :
    findKey key rows k = none ↔ ∀ r ∈ rows, key r ≠ k := by
  simp [findKey, List.find?_eq_none]

/-- With distinct keys, a row of the list is the row of its key. -/
theorem DistinctKeys.findKey_of_mem {rows : List α} (h : DistinctKeys key rows) {r : α}
    (hr : r ∈ rows) : findKey key rows (key r) = some r := by
  induction rows with
  | nil => simp at hr
  | cons r' rows ih =>
    obtain ⟨hne, hrows⟩ := DistinctKeys.cons.mp h
    rw [findKey_cons]
    rcases List.mem_cons.mp hr with rfl | hr
    · rw [if_pos rfl]
    · rw [if_neg (Ne.symm (hne r hr)), ih hrows hr]

theorem DistinctKeys.findKey_eq_some {rows : List α} (h : DistinctKeys key rows) {k : κ} {r : α} :
    findKey key rows k = some r ↔ r ∈ rows ∧ key r = k := by
  constructor
  · exact fun hf => ⟨mem_of_findKey hf, key_of_findKey hf⟩
  · rintro ⟨hr, rfl⟩
    exact h.findKey_of_mem hr

/-- The map does not depend on the order of the rows. -/
theorem DistinctKeys.findKey_perm {rows rows' : List α} (h : DistinctKeys key rows)
    (hp : rows'.Perm rows) (k : κ) : findKey key rows' k = findKey key rows k := by
  cases hf : findKey key rows k with
  | none =>
    rw [findKey_eq_none] at hf ⊢
    exact fun r hr => hf r (hp.mem_iff.mp hr)
  | some r =>
    rw [h.findKey_eq_some] at hf
    exact (h.perm hp).findKey_eq_some.mpr ⟨hp.mem_iff.mpr hf.1, hf.2⟩

theorem DistinctKeys.findKey_filter {rows : List α} (h : DistinctKeys key rows) (p : α → Bool)
    (k : κ) : findKey key (rows.filter p) k = (findKey key rows k).filter p := by
  cases hf : findKey key rows k with
  | none =>
    rw [findKey_eq_none] at hf
    exact findKey_eq_none.mpr fun r hr => hf r (List.mem_filter.mp hr).1
  | some r =>
    obtain ⟨hr, rfl⟩ := h.findKey_eq_some.mp hf
    by_cases hp : p r = true
    · rw [Option.filter_some, if_pos hp]
      exact (h.filter p).findKey_of_mem (List.mem_filter.mpr ⟨hr, hp⟩)
    · rw [Option.filter_some, if_neg hp, findKey_eq_none]
      intro r' hr' hkey
      obtain ⟨hmem, hp'⟩ := List.mem_filter.mp hr'
      have hsame := h.findKey_of_mem hmem
      rw [hkey, hf] at hsame
      cases hsame
      exact hp hp'

/-- Turning rows into others without touching their keys. -/
theorem findKey_map {β : Type} {key' : β → κ} {f : α → β} {rows : List α}
    (hf : ∀ r ∈ rows, key' (f r) = key r) (k : κ) :
    findKey key' (rows.map f) k = (findKey key rows k).map f := by
  induction rows with
  | nil => rfl
  | cons r rows ih =>
    have htail := ih fun r' hr' => hf r' (List.mem_cons_of_mem r hr')
    rw [List.map_cons, findKey_cons, findKey_cons, htail, hf r (by simp)]
    split <;> rfl

/-- Editing the row of one key. -/
def editKey (key : α → κ) (k : κ) (f : α → α) (rows : List α) : List α :=
  rows.map fun r => if key r = k then f r else r

theorem key_editKey {k : κ} {f : α → α} {rows : List α} (h : DistinctKeys key rows)
    (hf : ∀ r, findKey key rows k = some r → key (f r) = k) :
    ∀ r ∈ rows, key (if key r = k then f r else r) = key r := by
  intro r hr
  by_cases hk : key r = k
  · rw [if_pos hk, hk]
    exact hf r (h.findKey_eq_some.mpr ⟨hr, hk⟩)
  · rw [if_neg hk]

/-- An edit that keeps the key changes the row of that key only. -/
theorem findKey_editKey {k : κ} {f : α → α} {rows : List α} (h : DistinctKeys key rows)
    (hf : ∀ r, findKey key rows k = some r → key (f r) = k) (k' : κ) :
    findKey key (editKey key k f rows) k' =
      if k' = k then (findKey key rows k).map f else findKey key rows k' := by
  rw [editKey, findKey_map (key_editKey h hf)]
  cases hk' : findKey key rows k' with
  | none =>
    by_cases hk : k' = k
    · subst hk
      simp [hk']
    · simp [hk]
  | some r =>
    have hkey := key_of_findKey hk'
    by_cases hk : k' = k
    · subst hk
      simp [hk', hkey]
    · have hne : ¬key r = k := fun e => hk (hkey.symm.trans e)
      simp [hk, hne]

/-- An edit that changes the key leaves none at the old one. -/
theorem findKey_editKey_moved {k : κ} {f : α → α} {rows : List α} (h : DistinctKeys key rows)
    (hf : ∀ r, findKey key rows k = some r → key (f r) ≠ k) :
    findKey key (editKey key k f rows) k = none := by
  rw [findKey_eq_none]
  intro r' hr'
  obtain ⟨r, hr, rfl⟩ := List.mem_map.mp hr'
  by_cases hk : key r = k
  · rw [if_pos hk]
    exact hf r (h.findKey_eq_some.mpr ⟨hr, hk⟩)
  · rw [if_neg hk]
    exact hk

/-- An edit that keeps the key keeps the keys distinct. -/
theorem DistinctKeys.editKey {k : κ} {f : α → α} {rows : List α} (h : DistinctKeys key rows)
    (hf : ∀ r, findKey key rows k = some r → key (f r) = k) :
    DistinctKeys key (editKey key k f rows) := by
  unfold DistinctKeys at h ⊢
  have hkeys : (Lib.editKey key k f rows).map key = rows.map key := by
    rw [Lib.editKey, List.map_map]
    exact List.map_congr_left (key_editKey h hf)
  rw [hkeys]
  exact h

theorem findKey_append_singleton (rows : List α) (r : α) (k : κ) :
    findKey key (rows ++ [r]) k = (findKey key rows k).or (if key r = k then some r else none) := by
  induction rows with
  | nil =>
    rw [List.nil_append, findKey_cons, findKey_nil]
    exact Option.none_or.symm
  | cons r' rows ih =>
    rw [List.cons_append, findKey_cons, findKey_cons, ih]
    split <;> simp

/-- The rows of one key are at most one. -/
theorem DistinctKeys.filter_key {rows : List α} (h : DistinctKeys key rows) (k : κ) :
    rows.filter (fun r => key r = k) = (findKey key rows k).toList := by
  induction rows with
  | nil => rfl
  | cons r rows ih =>
    obtain ⟨hne, hrows⟩ := DistinctKeys.cons.mp h
    rw [findKey_cons]
    by_cases hk : key r = k
    · have hrest : rows.filter (fun r => key r = k) = [] :=
        List.filter_eq_nil_iff.mpr fun r' hr' => by simpa [← hk] using hne r' hr'
      simp [hk, hrest]
    · simp [hk, ih hrows]

end

end RubbishStore.Lib
