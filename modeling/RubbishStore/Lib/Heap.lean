import Mathlib.Data.List.Perm.Subperm
import Mathlib.Data.List.Range
import RubbishStore.Lib.Linked

/- A heap of cells that only grows. An address is the index of a cell; an access
   outside the heap has no result. A new cell changes no other one (`load_push`),
   a store only its own (`load_set_self`, `load_set_ne`). A function on cells maps
   over a heap and commutes with its operations (`load_map`, `store_map`). Where a
   cell holds a pointer to the next one, the nodes of a segment are allocated
   (`segment_lt`). -/
namespace RubbishStore.Lib

abbrev Addr : Type := Nat

structure Heap (C : Type) where
  cells : List C := []
  deriving DecidableEq, Repr

namespace Heap
variable {C : Type}

def load (h : Heap C) (a : Addr) : Option C := h.cells[a]?

def store (h : Heap C) (a : Addr) (c : C) : Option (Heap C) :=
  if a < h.cells.length then some ⟨h.cells.set a c⟩ else none

/-- The address the next cell gets. -/
def fresh (h : Heap C) : Addr := h.cells.length

/-- The heap with one cell more. -/
def push (h : Heap C) (c : C) : Heap C := ⟨h.cells ++ [c]⟩

/-- The heap with another cell at an address. -/
def set (h : Heap C) (a : Addr) (c : C) : Heap C := ⟨h.cells.set a c⟩

/-- A field of the cell at an address. -/
def field {F : Type} (h : Heap C) (f : C → F) (a : Addr) : Option F := (h.load a).map f

/-- Every cell through a function, at the same addresses. -/
def map {D : Type} (f : C → D) (h : Heap C) : Heap D := ⟨h.cells.map f⟩

variable {h : Heap C} {a b : Addr} {c d : C}

theorem load_lt (hload : h.load a = some c) : a < h.fresh :=
  (List.getElem?_eq_some_iff.mp hload).1

theorem store_eq (ha : a < h.fresh) (c : C) : h.store a c = some (h.set a c) := if_pos ha

theorem store_outside (ha : ¬ a < h.fresh) (c : C) : h.store a c = none := if_neg ha

@[simp] theorem fresh_push (h : Heap C) (c : C) : (h.push c).fresh = h.fresh + 1 := by
  rw [fresh, push, List.length_append, List.length_singleton, fresh]

@[simp] theorem load_push_new (h : Heap C) (c : C) : (h.push c).load h.fresh = some c :=
  List.getElem?_concat_length

theorem load_push (ha : a < h.fresh) (c : C) : (h.push c).load a = h.load a :=
  List.getElem?_append_left ha

theorem load_set_self (ha : a < h.fresh) (c : C) : (h.set a c).load a = some c :=
  List.getElem?_set_self ha

theorem set_set (h : Heap C) (a : Addr) (c d : C) : (h.set a c).set a d = h.set a d :=
  congrArg Heap.mk (List.set_set c)

@[simp] theorem fresh_set (h : Heap C) (a : Addr) (c : C) : (h.set a c).fresh = h.fresh :=
  List.length_set

theorem load_set_ne (hne : b ≠ a) (c : C) : (h.set a c).load b = h.load b :=
  List.getElem?_set_ne hne.symm

/-- A new cell is written again before anything else happens. -/
theorem store_push_new (h : Heap C) (c d : C) : (h.push c).store h.fresh d = some (h.push d) := by
  rw [store_eq (by rw [fresh_push]; exact Nat.lt_succ_self _)]
  have hcells : (h.cells ++ [c]).set h.cells.length d = h.cells ++ [d] := by
    rw [List.set_append_right _ _ (Nat.le_refl _), Nat.sub_self]
    rfl
  exact congrArg (fun cells => some (Heap.mk cells)) hcells

theorem field_eq {F : Type} (f : C → F) (hload : h.load a = some c) : h.field f a = some (f c) := by
  rw [field, hload]
  rfl

theorem exists_load {F : Type} {f : C → F} {x : F} (hfield : h.field f a = some x) :
    ∃ c, h.load a = some c ∧ f c = x :=
  Option.map_eq_some_iff.mp hfield

section
variable {D : Type} (f : C → D)

@[simp] theorem load_map (h : Heap C) (a : Addr) : (h.map f).load a = (h.load a).map f :=
  List.getElem?_map

@[simp] theorem fresh_map (h : Heap C) : (h.map f).fresh = h.fresh := List.length_map f

@[simp] theorem map_push (h : Heap C) (c : C) : (h.push c).map f = (h.map f).push (f c) := by
  simp [map, push]

@[simp] theorem map_set (h : Heap C) (a : Addr) (c : C) :
    (h.set a c).map f = (h.map f).set a (f c) := by
  simp [map, set, List.map_set]

theorem store_map (h : Heap C) (a : Addr) (c : C) :
    (h.map f).store a (f c) = (h.store a c).map (map f) := by
  by_cases ha : a < h.fresh
  · rw [store_eq ha, store_eq (by simpa using ha), Option.map_some, map_set]
  · rw [store_outside ha, store_outside (by simpa using ha), Option.map_none]

theorem field_map {F : Type} (g : D → F) (h : Heap C) (a : Addr) :
    (h.map f).field g a = h.field (fun c => g (f c)) a := by
  simp [field, Function.comp_def]

end

/-- The nodes of a segment are allocated. -/
theorem segment_lt {next : C → Option Addr} {nodes : List Addr} {p q : Option Addr}
    (hs : Segment (h.field next) p nodes q) : ∀ a ∈ nodes, a < h.fresh := by
  induction nodes generalizing p with
  | nil => simp
  | cons a nodes ih =>
    obtain ⟨-, p', hnext, htail⟩ := hs
    obtain ⟨c, hload, -⟩ := exists_load hnext
    exact List.forall_mem_cons.mpr ⟨load_lt hload, ih htail⟩

/-- There are no more of them than cells. -/
theorem segment_length_le {next : C → Option Addr} {nodes : List Addr} {p q : Option Addr}
    (hs : Segment (h.field next) p nodes q) (hnodup : nodes.Nodup) : nodes.length ≤ h.fresh := by
  have hsub : nodes ⊆ List.range h.fresh := fun a ha => List.mem_range.mpr (segment_lt hs a ha)
  have hle := (hnodup.subperm hsub).length_le
  rwa [List.length_range] at hle

end Heap

end RubbishStore.Lib
