import Mathlib.Data.List.Basic

/- Bodies that may raise, over an object that keeps what is recorded in it. An
   `Action` is such a body: it keeps the object's state when it raises. Where its
   course depends on a part of the object that recording leaves alone, what it
   records, and whether it raises, is an `Outcome` that is fixed in advance
   (`Records`); the rules follow the way a body is put together. -/
namespace RubbishStore.Lib

/-- A body over the state `S` that may raise an `E`. -/
def Action (S E α : Type) : Type := S → Except E α × S

namespace Action
variable {S E α β : Type}

instance : Monad (Action S E) where
  pure a := fun s => (.ok a, s)
  bind m f := fun s =>
    match m s with
    | (.ok a, s) => f a s
    | (.error e, s) => (.error e, s)

def get : Action S E S := fun s => (.ok s, s)
def modify (f : S → S) : Action S E Unit := fun s => (.ok (), f s)

/-- A value that is there, or what is raised in its place. -/
def lift (x : Except E α) : Action S E α := fun s => (x, s)

/-- The body at a state: what it gives or raises, and the state it leaves. -/
def exec (m : Action S E α) (s : S) : Except E α × S := m s

section
variable (s : S)

theorem exec_bind (m : Action S E α) (f : α → Action S E β) :
    (m >>= f).exec s =
      match m.exec s with
      | (.ok a, s) => (f a).exec s
      | (.error e, s) => (.error e, s) := rfl

theorem exec_bind_ok {m : Action S E α} {a : α} {s s' : S} (h : m.exec s = (.ok a, s'))
    (f : α → Action S E β) : (m >>= f).exec s = (f a).exec s' := by
  rw [exec_bind, h]

theorem exec_bind_error {m : Action S E α} {e : E} {s s' : S} (h : m.exec s = (.error e, s'))
    (f : α → Action S E β) : (m >>= f).exec s = (.error e, s') := by
  rw [exec_bind, h]

theorem exec_bind_pure (m : Action S E α) (f : α → β) :
    (m >>= fun a => pure (f a)).exec s = ((m.exec s).1.map f, (m.exec s).2) := by
  rw [exec_bind]
  obtain ⟨a | e, s'⟩ := m.exec s
  · rfl
  · rfl

/-- A body that reads the state at its end. -/
theorem exec_bind_read (m : Action S E α) (f : S → β) :
    (m >>= fun _ => get >>= fun s => pure (f s)).exec s =
      ((m.exec s).1.map fun _ => f (m.exec s).2, (m.exec s).2) := by
  rw [exec_bind]
  obtain ⟨a | e, s'⟩ := m.exec s
  · rfl
  · rfl

theorem exec_get_bind (f : S → Action S E β) : (get >>= f).exec s = (f s).exec s := rfl

theorem exec_lift_ok_bind (a : α) (f : α → Action S E β) : (lift (.ok a) >>= f).exec s = (f a).exec s := rfl

theorem exec_lift_error_bind (e : E) (f : α → Action S E β) :
    (lift (.error e) >>= f).exec s = (.error e, s) := rfl

end

end Action

/-- What is recorded, in order, and what is raised behind it. -/
structure Outcome (F E : Type) where
  items : List F := []
  raised : Option E := none
  deriving DecidableEq, Repr

namespace Outcome
variable {F E : Type}

def item (f : F) : Outcome F E := { items := [f] }

def raise (e : E) : Outcome F E := { raised := some e }

/-- One outcome, and behind it another unless the first has raised. -/
def andThen (o p : Outcome F E) : Outcome F E :=
  match o.raised with
  | none => { items := o.items ++ p.items, raised := p.raised }
  | some _ => o

/-- The outcomes of a loop. -/
def all {α : Type} (f : α → Outcome F E) : List α → Outcome F E
  | [] => {}
  | a :: as => (f a).andThen (all f as)

/-- What a value that may not be there leads to. -/
def ofExcept {α : Type} (x : Except E α) (k : α → Outcome F E) : Outcome F E :=
  match x with
  | .ok a => k a
  | .error e => raise e

/-- The return of a body with this outcome. -/
def returned (o : Outcome F E) : Except E Unit :=
  match o.raised with
  | none => .ok ()
  | some e => .error e

theorem returned_map_map {β γ : Type} (o : Outcome F E) (b : β) (f : β → γ) :
    (o.returned.map fun _ => b).map f = o.returned.map fun _ => f b := by
  cases o.returned with
  | ok u => rfl
  | error e => rfl

/-- Two values that are given if nothing is raised. -/
theorem returned_map_eq_iff {β : Type} (o : Outcome F E) (b c : β) :
    (o.returned.map fun _ => b) = (o.returned.map fun _ => c) ↔ o.raised ≠ none ∨ b = c := by
  obtain ⟨items, raised⟩ := o
  cases raised with
  | none =>
    refine ⟨fun h => .inr (Except.ok.inj h), fun h => ?_⟩
    obtain hne | rfl := h
    · exact absurd rfl hne
    · rfl
  | some e => exact ⟨fun _ => .inl (Option.some_ne_none e), fun _ => rfl⟩

end Outcome

section
variable {S F E α : Type} {record : S → F → S} {P : S → Prop}

/-- From every state in `P` the body records the items of the outcome, in order, and
    returns or raises as the outcome says. -/
def Records (record : S → F → S) (P : S → Prop) (m : Action S E Unit) (o : Outcome F E) : Prop :=
  ∀ s, P s → m.exec s = (o.returned, o.items.foldl record s)

theorem foldl_record_keeps (hkeep : ∀ s f, P s → P (record s f)) {s : S} (hs : P s) (items : List F) :
    P (items.foldl record s) := by
  induction items generalizing s with
  | nil => exact hs
  | cons f items ih => exact ih (hkeep s f hs)

namespace Records

theorem pure : Records record P (Pure.pure () : Action S E Unit) {} := fun _ _ => rfl

theorem raise (e : E) : Records record P (Action.lift (.error e)) (.raise e) := fun _ _ => rfl

theorem item (f : F) :
    Records record P (Action.modify fun s => record s f : Action S E Unit) (.item f) := fun _ _ => rfl

theorem ite {c : Prop} [Decidable c] {m n : Action S E Unit} {o p : Outcome F E}
    (hm : Records record P m o) (hn : Records record P n p) :
    Records record P (if c then m else n) (if c then o else p) := by
  split
  · exact hm
  · exact hn

/-- A body that first reads the state, where the states in `P` all lead to one body. -/
theorem get {k : S → Action S E Unit} {m : Action S E Unit} {o : Outcome F E}
    (hk : ∀ s, P s → k s = m) (hm : Records record P m o) :
    Records record P (Action.get >>= k) o := by
  intro s hs
  rw [Action.exec_get_bind, hk s hs]
  exact hm s hs

theorem lift {x : Except E α} {k : α → Action S E Unit} {o : α → Outcome F E}
    (hk : ∀ a, Records record P (k a) (o a)) :
    Records record P (Action.lift x >>= k) (.ofExcept x o) := by
  intro s hs
  cases x with
  | ok a =>
    rw [Action.exec_lift_ok_bind]
    exact hk a s hs
  | error e => exact Action.exec_lift_error_bind s e k

theorem seq (hkeep : ∀ s f, P s → P (record s f)) {m n : Action S E Unit} {o p : Outcome F E}
    (hm : Records record P m o) (hn : Records record P n p) :
    Records record P (m >>= fun _ => n) (o.andThen p) := by
  obtain ⟨items, raised⟩ := o
  intro s hs
  have hm := hm s hs
  cases raised with
  | none =>
    rw [Action.exec_bind_ok hm, hn _ (foldl_record_keeps hkeep hs items), Outcome.andThen,
      List.foldl_append]
    rfl
  | some e =>
    rw [Action.exec_bind_error hm]
    rfl

theorem forM (hkeep : ∀ s f, P s → P (record s f)) {m : α → Action S E Unit}
    {o : α → Outcome F E} (as : List α) (hm : ∀ a ∈ as, Records record P (m a) (o a)) :
    Records record P (as.forM m) (.all o as) := by
  induction as with
  | nil => exact pure
  | cons a as ih =>
    obtain ⟨ha, has⟩ := List.forall_mem_cons.mp hm
    exact seq hkeep ha (ih has)

end Records

end

end RubbishStore.Lib
