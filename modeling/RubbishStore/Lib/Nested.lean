import Mathlib.Data.List.Basic
import Mathlib.Data.List.Forall2

/- Values that are a scalar or an array of such values under keys, to any depth, and what
   a function does that is called for every scalar. The shape of a value is what is left
   of it without its scalars. -/
namespace RubbishStore.Lib

mutual

inductive Nested (K : Type) (α : Type) where
  | scalar (a : α)
  | array (entries : Entries K α)

/-- The entries of an array, in their order. -/
inductive Entries (K : Type) (α : Type) where
  | nil
  | cons (key : K) (value : Nested K α) (more : Entries K α)

end

namespace Nested

variable {K α β : Type}

mutual

/-- Every scalar replaced, at its key. -/
def map (f : α → β) : Nested K α → Nested K β
  | .scalar a => .scalar (f a)
  | .array entries => .array (mapEntries f entries)

def mapEntries (f : α → β) : Entries K α → Entries K β
  | .nil => .nil
  | .cons key value more => .cons key (map f value) (mapEntries f more)

end

mutual

def scalars : Nested K α → List α
  | .scalar a => [a]
  | .array entries => scalarsEntries entries

def scalarsEntries : Entries K α → List α
  | .nil => []
  | .cons _ value more => scalars value ++ scalarsEntries more

end

def shape (data : Nested K α) : Nested K Unit := data.map fun _ => ()

mutual

theorem shape_map (f : α → β) : ∀ data : Nested K α, shape (map f data) = shape data
  | .scalar _ => rfl
  | .array entries => congrArg Nested.array (shape_mapEntries f entries)

theorem shape_mapEntries (f : α → β) : ∀ entries : Entries K α,
    mapEntries (fun _ => ()) (mapEntries f entries) = mapEntries (fun _ => ()) entries
  | .nil => rfl
  | .cons key value more => by
    have hvalue : map (fun _ => ()) (map f value) = map (fun _ => ()) value := shape_map f value
    rw [mapEntries, mapEntries, mapEntries, hvalue, shape_mapEntries f more]

end

mutual

theorem scalars_map (f : α → β) : ∀ data : Nested K α, scalars (map f data) = (scalars data).map f
  | .scalar _ => rfl
  | .array entries => scalarsEntries_map f entries

theorem scalarsEntries_map (f : α → β) : ∀ entries : Entries K α,
    scalarsEntries (mapEntries f entries) = (scalarsEntries entries).map f
  | .nil => rfl
  | .cons key value more => by
    rw [mapEntries, scalarsEntries, scalarsEntries, List.map_append, scalars_map f value,
      scalarsEntries_map f more]

end

mutual

/-- A value stays as it is just when each of its scalars does. -/
theorem map_eq_self_iff {f : α → α} : ∀ data : Nested K α,
    map f data = data ↔ ∀ a ∈ scalars data, f a = a
  | .scalar a => by
    rw [map, scalars, List.forall_mem_singleton, Nested.scalar.injEq]
  | .array entries => by
    rw [map, scalars, Nested.array.injEq, mapEntries_eq_self_iff]

theorem mapEntries_eq_self_iff {f : α → α} : ∀ entries : Entries K α,
    mapEntries f entries = entries ↔ ∀ a ∈ scalarsEntries entries, f a = a
  | .nil => by simp [mapEntries, scalarsEntries]
  | .cons key value more => by
    rw [mapEntries, scalarsEntries, List.forall_mem_append, Entries.cons.injEq, map_eq_self_iff value,
      mapEntries_eq_self_iff more]
    simp only [true_and]

end

mutual

theorem map_map {γ : Type} (f : α → β) (g : β → γ) : ∀ data : Nested K α,
    map g (map f data) = map (g ∘ f) data
  | .scalar _ => rfl
  | .array entries => congrArg Nested.array (mapEntries_mapEntries f g entries)

theorem mapEntries_mapEntries {γ : Type} (f : α → β) (g : β → γ) : ∀ entries : Entries K α,
    mapEntries g (mapEntries f entries) = mapEntries (g ∘ f) entries
  | .nil => rfl
  | .cons key value more => by
    rw [mapEntries, mapEntries, mapEntries, map_map f g value, mapEntries_mapEntries f g more]

end

/-- What relates each scalar to what it becomes holds scalar for scalar. -/
theorem forall₂_scalars_map {R : α → β → Prop} {f : α → β} {data : Nested K α} :
    List.Forall₂ R (scalars data) (scalars (map f data)) ↔ ∀ a ∈ scalars data, R a (f a) := by
  rw [scalars_map, List.forall₂_map_right_iff, List.forall₂_same]

end Nested

end RubbishStore.Lib
