import Mathlib.Data.List.Basic

/- Systems in which an event may or may not happen: `step s e` is the state behind it,
   or there is none. `play` is the state after several. What each permitted event
   keeps holds after any of them (`play_inv`), and where each lowers a rank, there
   are no more of them than the rank at the start allows (`play_rank`), so that from
   every state some of them lead to one in which none can happen (`exists_stuck`). -/
namespace RubbishStore.Lib.Labelled

variable {S E : Type} (step : S → E → Option S)

/-- The state after the events, if each of them can happen when it comes. -/
def play : S → List E → Option S
  | s, [] => some s
  | s, e :: es => (step s e).bind fun s' => play s' es

/-- None of these events can happen. -/
def Stuck (P : E → Prop) (s : S) : Prop := ∀ e, P e → step s e = none

variable {step} {P : E → Prop} {I : S → Prop} {s s' : S} {es : List E}

theorem play_cons {e : E} (h : play step s (e :: es) = some s') :
    ∃ t, step s e = some t ∧ play step t es = some s' := Option.bind_eq_some_iff.mp h

theorem play_append {t u : S} {fs : List E} (h : play step s es = some t) (h' : play step t fs = some u) :
    play step s (es ++ fs) = some u := by
  induction es generalizing s with
  | nil =>
    have hsame : s = t := Option.some.inj h
    rw [hsame]
    exact h'
  | cons e es ih =>
    obtain ⟨v, hstep, hrest⟩ := play_cons h
    rw [List.cons_append, play, hstep]
    exact ih hrest

/-- What every permitted event keeps. -/
theorem play_inv (hstep : ∀ s e s', P e → I s → step s e = some s' → I s') (hP : ∀ e ∈ es, P e) (hs : I s)
    (h : play step s es = some s') : I s' := by
  induction es generalizing s with
  | nil => exact Option.some.inj h ▸ hs
  | cons e es ih =>
    obtain ⟨he, hes⟩ := List.forall_mem_cons.mp hP
    obtain ⟨t, ht, hrest⟩ := play_cons h
    exact ih hes (hstep s e t he hs ht) hrest

variable {rank : S → Nat}

theorem play_rank (hstep : ∀ s e s', P e → I s → step s e = some s' → I s' ∧ rank s' < rank s)
    (hP : ∀ e ∈ es, P e) (hs : I s) (h : play step s es = some s') : es.length + rank s' ≤ rank s := by
  induction es generalizing s with
  | nil =>
    have hsame : s = s' := Option.some.inj h
    subst hsame
    exact Nat.le_of_eq (Nat.zero_add _)
  | cons e es ih =>
    obtain ⟨he, hes⟩ := List.forall_mem_cons.mp hP
    obtain ⟨t, ht, hrest⟩ := play_cons h
    obtain ⟨hI, hlt⟩ := hstep s e t he hs ht
    have hle := ih hes hI hrest
    rw [List.length_cons]
    omega

/-- Where every permitted event lowers the rank, permitted events lead to a stuck state. -/
theorem exists_stuck (hstep : ∀ s e s', P e → I s → step s e = some s' → I s' ∧ rank s' < rank s) (hs : I s) :
    ∃ es s', (∀ e ∈ es, P e) ∧ play step s es = some s' ∧ Stuck step P s' := by
  induction hr : rank s using Nat.strongRecOn generalizing s with
  | _ r ih =>
    by_cases hstuck : Stuck step P s
    · exact ⟨[], s, fun e he => absurd he List.not_mem_nil, rfl, hstuck⟩
    · obtain ⟨e, hne⟩ := not_forall.mp hstuck
      obtain ⟨he, hnone⟩ := Classical.not_imp.mp hne
      obtain ⟨t, ht⟩ := Option.ne_none_iff_exists'.mp hnone
      obtain ⟨hI, hlt⟩ := hstep s e t he hs ht
      obtain ⟨es, s', hes, hplay, hend⟩ := ih (rank t) (hr ▸ hlt) hI rfl
      refine ⟨e :: es, s', List.forall_mem_cons.mpr ⟨he, hes⟩, ?_, hend⟩
      rw [play, ht]
      exact hplay

end RubbishStore.Lib.Labelled
