import Mathlib.Algebra.GroupWithZero.Nat
import Mathlib.Data.List.Basic

/- Texts with `?` placeholders. A template is a list of pieces, plain text and
   holes, each hole with the value bound to it. `render` is the text with a `?`
   for every hole, `holes` the values from left to right. Where the plain
   pieces hold no `?` of their own (`Clean`), the `?`s of the text are exactly
   the holes: they are as many as the values (`Clean.marks_render`), and the
   `?` of a hole is preceded by as many `?`s as values precede its value
   (`Clean.hole_position`). `annotate` turns a text that has its own `?`s into
   a template, giving them the values of a list. -/
namespace RubbishStore.Lib

/-- How many placeholders a text has. -/
def marks (s : String) : Nat := s.toList.count '?'

@[simp] theorem marks_append (s t : String) : marks (s ++ t) = marks s + marks t := by
  simp [marks]

@[simp] theorem marks_empty : marks "" = 0 := rfl

/-- A literal without placeholders; used with `simp (disch := decide)`. -/
theorem marks_lit {s : String} (h : '?' ∉ s.toList) : marks s = 0 := List.count_eq_zero.mpr h

theorem marks_question : marks "?" = 1 := by decide

/-- PHP's `implode`: the texts with `sep` between them. -/
def implode (sep : String) : List String → String
  | [] => ""
  | [s] => s
  | s :: t :: rest => s ++ sep ++ implode sep (t :: rest)

theorem marks_implode {sep : String} (hsep : marks sep = 0) (ss : List String) :
    marks (implode sep ss) = (ss.map marks).sum := by
  induction ss with
  | nil => rfl
  | cons s ss ih =>
    cases ss with
    | nil => simp [implode]
    | cons t rest =>
      rw [implode, marks_append, marks_append, ih, hsep, List.map_cons, List.sum_cons]
      rfl

/-- Decimal digits hold no placeholder. -/
theorem marks_toString (n : Nat) : marks (toString n) = 0 := by
  refine marks_lit fun h => ?_
  have hd := Nat.isDigit_of_mem_toDigits (b := 10) (by decide) (by decide) (c := '?') (n := n)
    (by simpa using h)
  exact absurd hd (by decide)

inductive Piece (β : Type) where
  | text (s : String)
  | hole (v : β)
  deriving DecidableEq, Repr

abbrev Template (β : Type) : Type := List (Piece β)

namespace Template
variable {β : Type}

/-- The text, with a `?` for every hole. -/
def render : Template β → String
  | [] => ""
  | .text s :: ps => s ++ render ps
  | .hole _ :: ps => "?" ++ render ps

/-- The values bound, from left to right. -/
def holes : Template β → List β
  | [] => []
  | .text _ :: ps => holes ps
  | .hole v :: ps => v :: holes ps

/-- No plain piece holds a placeholder of its own. -/
def Clean (ps : Template β) : Prop := ∀ s, .text s ∈ ps → marks s = 0

@[simp] theorem render_nil : render ([] : Template β) = "" := rfl
@[simp] theorem render_text (s : String) (ps : Template β) :
    render (.text s :: ps) = s ++ render ps := rfl
@[simp] theorem render_hole (v : β) (ps : Template β) :
    render (.hole v :: ps) = "?" ++ render ps := rfl
@[simp] theorem holes_nil : holes ([] : Template β) = [] := rfl
@[simp] theorem holes_text (s : String) (ps : Template β) : holes (.text s :: ps) = holes ps := rfl
@[simp] theorem holes_hole (v : β) (ps : Template β) : holes (.hole v :: ps) = v :: holes ps := rfl

@[simp] theorem render_append (ps qs : Template β) :
    render (ps ++ qs) = render ps ++ render qs := by
  induction ps with
  | nil => simp
  | cons p ps ih => cases p <;> simp [ih, String.append_assoc]

@[simp] theorem holes_append (ps qs : Template β) : holes (ps ++ qs) = holes ps ++ holes qs := by
  induction ps with
  | nil => rfl
  | cons p ps ih => cases p <;> simp [ih]

@[simp] theorem clean_nil : Clean ([] : Template β) := fun _ h => absurd h (by simp)

theorem clean_append {ps qs : Template β} : Clean (ps ++ qs) ↔ Clean ps ∧ Clean qs := by
  simp only [Clean, List.mem_append, or_imp, forall_and]

theorem clean_text {s : String} {ps : Template β} :
    Clean (.text s :: ps) ↔ marks s = 0 ∧ Clean ps := by
  simp [Clean, or_imp, forall_and]

theorem clean_hole {v : β} {ps : Template β} : Clean (.hole v :: ps) ↔ Clean ps := by
  simp [Clean]

/-- A clean template's text has one placeholder for each value. -/
theorem Clean.marks_render {ps : Template β} (h : Clean ps) :
    marks (render ps) = (holes ps).length := by
  induction ps with
  | nil => rfl
  | cons p ps ih =>
    cases p with
    | text s => simp [(clean_text.mp h).1, ih (clean_text.mp h).2]
    | hole v =>
      simp [marks_question, ih (clean_hole.mp h), Nat.add_comm]

/-- The `?` a hole is rendered to is the `i`-th of the text exactly when its
    value is the `i`-th of the values. -/
theorem Clean.hole_position {ps qs : Template β} {v : β} (h : Clean (ps ++ .hole v :: qs)) :
    render (ps ++ .hole v :: qs) = render ps ++ ("?" ++ render qs) ∧
      marks (render ps) = (holes ps).length ∧
      (holes (ps ++ .hole v :: qs))[(holes ps).length]? = some v := by
  refine ⟨by simp, (clean_append.mp h).1.marks_render, ?_⟩
  simp

/-- The `?`s of a text stand for the values of a list, one by one: text and
    values are those of the template, and the `?` of a hole is the `i`-th of the
    text when its value is the `i`-th of the list. -/
structure Spells (ps : Template β) (text : String) (values : List β) : Prop where
  render_eq : text = ps.render
  holes_eq : values = ps.holes
  marks_eq : marks text = values.length
  position : ∀ (before after : Template β) (v : β), ps = before ++ .hole v :: after →
    text = before.render ++ ("?" ++ after.render) ∧ values[marks before.render]? = some v

theorem Clean.spells {ps : Template β} (h : ps.Clean) : ps.Spells ps.render ps.holes := by
  refine ⟨rfl, rfl, h.marks_render, ?_⟩
  rintro before after v rfl
  obtain ⟨hrender, hcount, hval⟩ := h.hole_position
  exact ⟨hrender, by rw [hcount, hval]⟩

/-- Templates one after another, with `sep` between them. -/
def implode (sep : String) : List (Template β) → Template β
  | [] => []
  | [p] => p
  | p :: q :: rest => p ++ .text sep :: implode sep (q :: rest)

theorem render_implode (sep : String) (ts : List (Template β)) :
    render (implode sep ts) = Lib.implode sep (ts.map render) := by
  induction ts with
  | nil => rfl
  | cons t ts ih =>
    cases ts with
    | nil => rfl
    | cons u rest =>
      rw [implode, render_append, render_text, ih]
      simp only [List.map_cons, Lib.implode, String.append_assoc]

theorem holes_implode (sep : String) (ts : List (Template β)) :
    holes (implode sep ts) = ts.flatMap holes := by
  induction ts with
  | nil => rfl
  | cons t ts ih =>
    cases ts with
    | nil => simp [implode]
    | cons u rest =>
      rw [implode, holes_append, holes_text, ih]
      rfl

theorem clean_implode {sep : String} (hsep : marks sep = 0) {ts : List (Template β)}
    (h : ∀ t ∈ ts, Clean t) : Clean (implode sep ts) := by
  induction ts with
  | nil => exact clean_nil
  | cons t ts ih =>
    cases ts with
    | nil => exact h t (by simp)
    | cons u rest =>
      rw [implode, clean_append, clean_text]
      exact ⟨h t (by simp), hsep, ih fun x hx => h x (List.mem_cons_of_mem _ hx)⟩

/-- The characters of a text, its `?`s taking the values of a list while there
    are any. -/
def annotateChars : List Char → List β → Template β
  | [], _ => []
  | c :: cs, [] => .text (String.singleton c) :: annotateChars cs []
  | c :: cs, v :: vs =>
    if c = '?' then .hole v :: annotateChars cs vs
    else .text (String.singleton c) :: annotateChars cs (v :: vs)

/-- A text with its own placeholders, as a template. -/
def annotate (s : String) (vs : List β) : Template β := annotateChars s.toList vs

theorem render_annotateChars (cs : List Char) (vs : List β) :
    (render (annotateChars cs vs)).toList = cs := by
  induction cs generalizing vs with
  | nil => simp [annotateChars]
  | cons c cs ih =>
    cases vs with
    | nil => simp [annotateChars, ih]
    | cons v vs =>
      by_cases h : c = '?'
      · simp [annotateChars, h, ih]
      · simp [annotateChars, h, ih]

@[simp] theorem render_annotate (s : String) (vs : List β) : render (annotate s vs) = s :=
  String.toList_inj.mp (render_annotateChars s.toList vs)

theorem annotateChars_spec {cs : List Char} {vs : List β} (h : cs.count '?' = vs.length) :
    holes (annotateChars cs vs) = vs ∧ Clean (annotateChars cs vs) := by
  induction cs generalizing vs with
  | nil =>
    have : vs = [] := List.eq_nil_of_length_eq_zero (by simpa using h.symm)
    simp [annotateChars, this]
  | cons c cs ih =>
    by_cases hc : c = '?'
    · subst hc
      cases vs with
      | nil => simp at h
      | cons v vs =>
        have ih' := @ih vs (by simpa using h)
        simp [annotateChars, clean_hole, ih'.1, ih'.2]
    · have hm : marks (String.singleton c) = 0 := by simp [marks, hc]
      have ih' := @ih vs (by simpa [hc] using h)
      cases vs <;> simp_all [annotateChars, clean_text]

/-- A text with as many placeholders as values binds exactly those values. -/
theorem holes_annotate {s : String} {vs : List β} (h : marks s = vs.length) :
    holes (annotate s vs) = vs := (annotateChars_spec h).1

theorem clean_annotate {s : String} {vs : List β} (h : marks s = vs.length) :
    Clean (annotate s vs) := (annotateChars_spec h).2

end Template

end RubbishStore.Lib
