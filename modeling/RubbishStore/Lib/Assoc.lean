import Mathlib.Data.List.Nodup

/- Ordered maps as lists of pairs, in the order of first insertion: writing a
   key that is there keeps its place, writing a new one appends it. They are
   read with `List.lookup`, the first pair of a key, so the lemmas need no
   uniqueness except where they say so. -/
namespace RubbishStore.Lib

variable {κ β : Type}

def assocKeys (m : List (κ × β)) : List κ := m.map Prod.fst

@[simp] theorem assocKeys_cons (p : κ × β) (m : List (κ × β)) :
    assocKeys (p :: m) = p.1 :: assocKeys m := rfl

variable [DecidableEq κ]

/-- `m[k] = v`. -/
def assocSet : List (κ × β) → κ → β → List (κ × β)
  | [], k, v => [(k, v)]
  | (k', v') :: m, k, v => if k' = k then (k', v) :: m else (k', v') :: assocSet m k v

/-- `unset(m[k])`. -/
def assocErase (m : List (κ × β)) (k : κ) : List (κ × β) := m.filter (fun p => p.1 ≠ k)

theorem lookup_cons_ite [BEq κ] [LawfulBEq κ] (k' k : κ) (v : β) (m : List (κ × β)) :
    ((k', v) :: m).lookup k = if k' = k then some v else m.lookup k := by
  by_cases h : k' = k
  · simp [h]
  · have hk : (k == k') = false := by simpa using fun e => h e.symm
    simp [List.lookup_cons, hk, h]

theorem lookup_set [BEq κ] [LawfulBEq κ] (m : List (κ × β)) (k k' : κ) (v : β) :
    (assocSet m k v).lookup k' = if k = k' then some v else m.lookup k' := by
  induction m with
  | nil => simp [assocSet, lookup_cons_ite]
  | cons p m ih =>
    obtain ⟨k₀, v₀⟩ := p
    by_cases h : k₀ = k
    · subst h
      by_cases h' : k₀ = k' <;> simp [assocSet, lookup_cons_ite, h']
    · by_cases h' : k₀ = k'
      · subst h'
        have hk : ¬ k = k₀ := fun e => h e.symm
        simp [assocSet, h, hk]
      · simp [assocSet, lookup_cons_ite, h, h', ih]

@[simp] theorem lookup_set_self (m : List (κ × β)) (k : κ) (v : β) :
    (assocSet m k v).lookup k = some v := by
  simp [lookup_set]

theorem lookup_eq_none_keys {m : List (κ × β)} {k : κ} : m.lookup k = none ↔ k ∉ assocKeys m := by
  induction m with
  | nil => simp [assocKeys]
  | cons p m ih =>
    by_cases h : p.1 = k
    · simp [h]
    · have h' : ¬ k = p.1 := fun e => h e.symm
      rw [lookup_cons_ite, if_neg h, ih]
      simp [h']

/-- With distinct keys, a pair of the list is what lookup finds. -/
theorem lookup_of_mem [BEq κ] [LawfulBEq κ] {m : List (κ × β)} {k : κ} {v : β} (hm : (assocKeys m).Nodup)
    (h : (k, v) ∈ m) : m.lookup k = some v := by
  induction m with
  | nil => simp at h
  | cons p m ih =>
    obtain ⟨k₀, v₀⟩ := p
    simp only [assocKeys_cons, List.nodup_cons] at hm
    rcases List.mem_cons.mp h with e | h
    · simp only [Prod.mk.injEq] at e
      simp [e.1, e.2]
    · have hne : k₀ ≠ k := by
        rintro rfl
        exact hm.1 (List.mem_map_of_mem (f := Prod.fst) h)
      simpa [lookup_cons_ite, hne] using ih hm.2 h

theorem mem_assocErase {m : List (κ × β)} {k : κ} {p : κ × β} :
    p ∈ assocErase m k ↔ p ∈ m ∧ p.1 ≠ k := by
  simp [assocErase]

theorem mem_assocKeys_erase {m : List (κ × β)} {k k' : κ} :
    k' ∈ assocKeys (assocErase m k) ↔ k' ∈ assocKeys m ∧ k' ≠ k := by
  refine ⟨fun hmem => ?_, fun h => ?_⟩
  · obtain ⟨p, hp, rfl⟩ := List.mem_map.mp hmem
    obtain ⟨hm, hne⟩ := mem_assocErase.mp hp
    exact ⟨List.mem_map_of_mem hm, hne⟩
  · obtain ⟨hmem, hne⟩ := h
    obtain ⟨p, hp, rfl⟩ := List.mem_map.mp hmem
    exact List.mem_map_of_mem (mem_assocErase.mpr ⟨hp, hne⟩)

/-- A pair of an updated map was there, or carries the new value. -/
theorem mem_assocSet {m : List (κ × β)} {k : κ} {v : β} {p : κ × β}
    (hp : p ∈ assocSet m k v) : p ∈ m ∨ p.2 = v := by
  induction m with
  | nil => exact .inr (by simp [assocSet] at hp; simp [hp])
  | cons q m ih =>
    by_cases hq : q.1 = k
    · simp only [assocSet, hq, if_true, List.mem_cons] at hp
      rcases hp with rfl | hp
      · exact .inr rfl
      · exact .inl (List.mem_cons_of_mem _ hp)
    · simp only [assocSet, hq, if_false, List.mem_cons] at hp
      rcases hp with rfl | hp
      · exact .inl (by simp)
      · exact (ih hp).imp_left (List.mem_cons_of_mem _)

theorem assocKeys_set (m : List (κ × β)) (k : κ) (v : β) :
    assocKeys (assocSet m k v) = if k ∈ assocKeys m then assocKeys m else assocKeys m ++ [k] := by
  induction m with
  | nil => simp [assocSet, assocKeys]
  | cons p m ih =>
    obtain ⟨k₀, v₀⟩ := p
    by_cases h : k₀ = k
    · simp [assocSet, h]
    · have h' : ¬ k = k₀ := fun e => h e.symm
      rw [assocSet, if_neg h, assocKeys_cons, ih]
      by_cases hk : k ∈ assocKeys m <;> simp [hk, h']

/-- A new key goes behind the others. -/
theorem assocSet_new {m : List (κ × β)} {k : κ} (h : k ∉ assocKeys m) (v : β) : assocSet m k v = m ++ [(k, v)] := by
  induction m with
  | nil => rfl
  | cons p m ih =>
    rw [assocKeys_cons, List.mem_cons, not_or] at h
    rw [assocSet, if_neg (Ne.symm h.1), ih h.2]
    rfl

theorem mem_assocKeys_set {m : List (κ × β)} {k k' : κ} {v : β} :
    k' ∈ assocKeys (assocSet m k v) ↔ k' = k ∨ k' ∈ assocKeys m := by
  rw [assocKeys_set]
  split
  · next h =>
    constructor
    · exact Or.inr
    · rintro (rfl | h')
      · exact h
      · exact h'
  · simp [or_comm]

theorem lookup_erase [BEq κ] [LawfulBEq κ] (m : List (κ × β)) (k k' : κ) :
    (assocErase m k).lookup k' = if k = k' then none else m.lookup k' := by
  induction m with
  | nil => simp [assocErase]
  | cons p m ih =>
    obtain ⟨k₀, v₀⟩ := p
    unfold assocErase at ih ⊢
    rw [List.filter_cons, lookup_cons_ite]
    by_cases h : k₀ = k
    · subst h
      rw [if_neg (by simp), ih]
      by_cases h' : k₀ = k' <;> simp [h']
    · rw [if_pos (by simpa using h), lookup_cons_ite, ih]
      by_cases h' : k₀ = k'
      · subst h'
        have hk : ¬k = k₀ := fun e => h e.symm
        simp [hk]
      · simp [h']

/-- Renaming the keys. -/
theorem lookup_map_fst {κ' : Type} [BEq κ] [LawfulBEq κ] [BEq κ'] [LawfulBEq κ'] [DecidableEq κ']
    {f : κ → κ'} {m : List (κ × β)} {k : κ} (hf : ∀ p ∈ m, f p.1 = f k → p.1 = k) :
    (m.map fun p => (f p.1, p.2)).lookup (f k) = m.lookup k := by
  induction m with
  | nil => rfl
  | cons p m ih =>
    have htail := ih fun q hq => hf q (List.mem_cons_of_mem p hq)
    have hhead := hf p List.mem_cons_self
    rw [List.map_cons, lookup_cons_ite, lookup_cons_ite, htail]
    by_cases h : p.1 = k
    · simp [h]
    · have h' : ¬f p.1 = f k := fun e => h (hhead e)
      simp [h, h']

/-- A map built from a list of keys, read at one of them. -/
theorem lookup_map_mk (f : κ → β) (ks : List κ) (k : κ) :
    (ks.map fun k => (k, f k)).lookup k = if k ∈ ks then some (f k) else none := by
  induction ks with
  | nil => simp
  | cons k₀ ks ih =>
    rw [List.map_cons, lookup_cons_ite, ih]
    by_cases h : k₀ = k
    · simp [h]
    · have h' : ¬ k = k₀ := fun e => h e.symm
      simp [h, h']

end RubbishStore.Lib
