import RubbishStore.Lib.Runs

/- A value that is kept in one place and copied to a second one, which is read. A copy
   overwrites only with what is kept: dropping the kept value leaves the copy, and
   renewing the second place leaves the kept value to be copied there again. So once a
   value has been copied, and none is kept after it, the next copy leaves it to be read
   exactly unless the events in between forget it (`carried_events`): it has been
   dropped, and the second place renewed behind that, or before it with no copy in
   between. -/
namespace RubbishStore.Lib.Carried

inductive Event (V : Type) where
  | keep (v : V)
  | drop
  | copy
  | renew
  deriving DecidableEq, Repr

structure Cells (V : Type) where
  kept : Option V := none
  live : Option V := none
  deriving DecidableEq, Repr

variable {V : Type}

/-- What is read behind the next copy. -/
def Cells.carried (c : Cells V) : Option V := c.kept.or c.live

def step (c : Cells V) : Event V → Cells V
  | .keep v => { c with kept := some v }
  | .drop => { c with kept := none }
  | .copy => { c with live := c.carried }
  | .renew => { c with live := none }

/-- Nothing new is kept. -/
def Quiet (es : List (Event V)) : Prop := ∀ v, .keep v ∉ es

/-- There is a drop with no copy in front of it. -/
def DropsFirst (es : List (Event V)) : Prop := ∃ a b, es = a ++ .drop :: b ∧ .copy ∉ a

/-- The second place is renewed, behind a drop or in front of one with no copy in between. -/
def Forgets (es : List (Event V)) : Prop := ∃ a b, es = a ++ .renew :: b ∧ (.drop ∈ a ∨ DropsFirst b)

theorem Quiet.tail {e : Event V} {es : List (Event V)} (h : Quiet (e :: es)) : Quiet es :=
  fun v hv => h v (List.mem_cons_of_mem e hv)

@[simp] theorem not_dropsFirst_nil : ¬DropsFirst ([] : List (Event V)) := by simp [DropsFirst]

@[simp] theorem not_forgets_nil : ¬Forgets ([] : List (Event V)) := by simp [Forgets]

theorem dropsFirst_cons {e : Event V} {es : List (Event V)} :
    DropsFirst (e :: es) ↔ e = .drop ∨ (e ≠ .copy ∧ DropsFirst es) := by
  constructor
  · rintro ⟨a, b, hsplit, ha⟩
    cases a with
    | nil => exact .inl (List.cons.inj hsplit).1
    | cons e' a =>
      obtain ⟨rfl, hes⟩ := List.cons.inj hsplit
      rw [List.mem_cons, not_or] at ha
      exact .inr ⟨Ne.symm ha.1, a, b, hes, ha.2⟩
  · rintro (rfl | ⟨hne, a, b, rfl, ha⟩)
    · exact ⟨[], es, rfl, List.not_mem_nil⟩
    · exact ⟨e :: a, b, rfl, by simpa using ⟨Ne.symm hne, ha⟩⟩

theorem forgets_cons {e : Event V} {es : List (Event V)} :
    Forgets (e :: es) ↔ (e = .renew ∧ DropsFirst es) ∨ (e = .drop ∧ .renew ∈ es) ∨ Forgets es := by
  constructor
  · rintro ⟨a, b, hsplit, h⟩
    cases a with
    | nil =>
      obtain ⟨rfl, rfl⟩ := List.cons.inj hsplit
      exact .inl ⟨rfl, h.resolve_left List.not_mem_nil⟩
    | cons e' a =>
      obtain ⟨rfl, rfl⟩ := List.cons.inj hsplit
      rcases h with hdrop | hfirst
      · rcases List.mem_cons.mp hdrop with heq | hdrop
        · exact .inr (.inl ⟨heq.symm, List.mem_append_right a List.mem_cons_self⟩)
        · exact .inr (.inr ⟨a, b, rfl, .inl hdrop⟩)
      · exact .inr (.inr ⟨a, b, rfl, .inr hfirst⟩)
  · rintro (⟨rfl, hfirst⟩ | ⟨rfl, hrenew⟩ | ⟨a, b, rfl, h⟩)
    · exact ⟨[], es, rfl, .inr hfirst⟩
    · obtain ⟨a, b, rfl⟩ := List.append_of_mem hrenew
      exact ⟨.drop :: a, b, rfl, .inl List.mem_cons_self⟩
    · exact ⟨e :: a, b, rfl, h.imp_left (List.mem_cons_of_mem e)⟩

theorem renew_mem_of_forgets {es : List (Event V)} (h : Forgets es) : .renew ∈ es := by
  obtain ⟨a, b, rfl, -⟩ := h
  exact List.mem_append_right a List.mem_cons_self

/-! Quiet events, by which of the two places the value is in. -/

theorem carried_gone {es : List (Event V)} (h : Quiet es) : (run step (⟨none, none⟩ : Cells V) es).carried = none := by
  induction es with
  | nil => rfl
  | cons e es ih =>
    cases e with
    | keep v => exact absurd List.mem_cons_self (h v)
    | drop | copy | renew => exact ih h.tail

section
open Classical

/-- Only the copy is left: it stays until it is renewed. -/
theorem carried_live {es : List (Event V)} (h : Quiet es) (v : V) :
    (run step ⟨none, some v⟩ es).carried = if .renew ∈ es then none else some v := by
  induction es with
  | nil => rfl
  | cons e es ih =>
    rw [run_cons]
    cases e with
    | keep v => exact absurd List.mem_cons_self (h v)
    | drop | copy =>
      refine (ih h.tail).trans ?_
      simp
    | renew =>
      rw [if_pos List.mem_cons_self]
      exact carried_gone h.tail

/-- A value that is kept, without its copy and with it: the one becomes the other at a copy and at
    a renewal. -/
theorem carried_kept {es : List (Event V)} (h : Quiet es) (v : V) :
    (run step ⟨some v, none⟩ es).carried = (if DropsFirst es ∨ Forgets es then none else some v) ∧
      (run step ⟨some v, some v⟩ es).carried = if Forgets es then none else some v := by
  induction es with
  | nil => simp [Cells.carried]
  | cons e es ih =>
    obtain ⟨hkept, hboth⟩ := ih h.tail
    rw [run_cons, run_cons, dropsFirst_cons, forgets_cons]
    cases e with
    | keep v => exact absurd List.mem_cons_self (h v)
    | drop =>
      have hlive := carried_live h.tail v
      have himp : Forgets es → .renew ∈ es := renew_mem_of_forgets
      refine ⟨(carried_gone h.tail).trans (by simp), hlive.trans ?_⟩
      by_cases hrenew : .renew ∈ es
      · simp [hrenew]
      · simp [hrenew, mt himp hrenew]
    | copy => exact ⟨hboth.trans (by simp), hboth.trans (by simp)⟩
    | renew => exact ⟨hkept.trans (by simp), hkept.trans (by simp)⟩

/-- A value that has just been copied is there behind the next copy unless it is forgotten. -/
theorem carried_events {es : List (Event V)} (h : Quiet es) (v : V) :
    (run step ⟨some v, some v⟩ es).carried = if Forgets es then none else some v := (carried_kept h v).2

end

end RubbishStore.Lib.Carried
