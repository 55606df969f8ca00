import RubbishStore.Lib.Assoc

/- Arrays of PHP by key: the pairs in the order of first insertion, no two with one
   key. `l + r` keeps the pairs of the left array and puts the other keys of the right
   one behind them. -/
namespace RubbishStore.Lib

variable {κ α : Type}

structure PhpArray (κ α : Type) where
  entries : List (κ × α)
  distinct : (assocKeys entries).Nodup

namespace PhpArray

def empty : PhpArray κ α := ⟨[], List.nodup_nil⟩

def isEmpty (m : PhpArray κ α) : Bool := m.entries.isEmpty

variable [DecidableEq κ]

/-- `m[k] ?? null` -/
def get (m : PhpArray κ α) (k : κ) : Option α := m.entries.lookup k

/-- `m[k] = v` -/
def set (m : PhpArray κ α) (k : κ) (v : α) : PhpArray κ α where
  entries := assocSet m.entries k v
  distinct := by
    rw [assocKeys_set]
    split
    · exact m.distinct
    · next hk => exact List.nodup_append'.mpr ⟨m.distinct, List.nodup_singleton k, by simpa using hk⟩

theorem keys_erase_sublist (m : List (κ × α)) (k : κ) : (assocKeys (assocErase m k)).Sublist (assocKeys m) :=
  List.Sublist.map Prod.fst List.filter_sublist

/-- `unset(m[k])` -/
def unset (m : PhpArray κ α) (k : κ) : PhpArray κ α where
  entries := assocErase m.entries k
  distinct := m.distinct.sublist (keys_erase_sublist m.entries k)

/-- The pairs of `r` whose keys `l` does not have. -/
def others (l r : PhpArray κ α) : List (κ × α) := r.entries.filter fun p => p.1 ∉ assocKeys l.entries

/-- `l + r` -/
def union (l r : PhpArray κ α) : PhpArray κ α where
  entries := l.entries ++ others l r
  distinct := by
    rw [assocKeys, List.map_append]
    refine List.nodup_append'.mpr ⟨l.distinct, r.distinct.sublist (List.Sublist.map Prod.fst List.filter_sublist), ?_⟩
    intro k hl hr
    obtain ⟨p, hp, rfl⟩ := List.mem_map.mp hr
    exact of_decide_eq_true (List.mem_filter.mp hp).2 hl

/-- What is behind a key; PHP's `isset`, for a `null` that is told by `isNull`. -/
def isset (isNull : α → Bool) (m : PhpArray κ α) (k : κ) : Bool :=
  match m.get k with
  | some v => !isNull v
  | none => false

variable (m l r : PhpArray κ α) (k k' : κ) (v : α)

@[simp] theorem get_empty : (empty : PhpArray κ α).get k = none := rfl

theorem get_set : (m.set k v).get k' = if k = k' then some v else m.get k' := lookup_set m.entries k k' v

theorem get_unset : (m.unset k).get k' = if k = k' then none else m.get k' := lookup_erase m.entries k k'

theorem get_eq_none_iff : m.get k = none ↔ k ∉ assocKeys m.entries := lookup_eq_none_keys

/-- No pair hides another one. -/
theorem lookup_reverse : m.entries.reverse.lookup k = m.get k := by
  have hkeys : assocKeys m.entries.reverse = (assocKeys m.entries).reverse := List.map_reverse
  cases hget : m.get k with
  | none =>
    rw [lookup_eq_none_keys, hkeys, List.mem_reverse]
    exact lookup_eq_none_keys.mp hget
  | some v =>
    obtain ⟨a, b, hsplit, -⟩ := List.lookup_eq_some_iff.mp hget
    refine lookup_of_mem ?_ (List.mem_reverse.mpr ?_)
    · rw [hkeys, List.nodup_reverse]
      exact m.distinct
    · rw [hsplit]
      exact List.mem_append_right a List.mem_cons_self

theorem mem_entries_iff {p : κ × α} : p ∈ m.entries ↔ m.get p.1 = some p.2 := by
  constructor
  · exact fun hp => lookup_of_mem m.distinct hp
  · intro hget
    obtain ⟨a, b, hsplit, -⟩ := List.lookup_eq_some_iff.mp hget
    rw [hsplit]
    exact List.mem_append_right a List.mem_cons_self

theorem get_union : (l.union r).get k = (l.get k).or (r.get k) := by
  unfold get union
  rw [List.lookup_append]
  cases hl : l.entries.lookup k with
  | some v => rfl
  | none =>
    have hk : k ∉ assocKeys l.entries := lookup_eq_none_keys.mp hl
    unfold others
    induction r.entries with
    | nil => rfl
    | cons p ps ih =>
      by_cases hp : p.1 = k
      · subst hp
        rw [List.filter_cons, if_pos (decide_eq_true hk), lookup_cons_ite, lookup_cons_ite, if_pos rfl, if_pos rfl]
      · rw [List.filter_cons, lookup_cons_ite, if_neg hp]
        split
        · rw [lookup_cons_ite, if_neg hp]
          exact ih
        · exact ih

end PhpArray

end RubbishStore.Lib
