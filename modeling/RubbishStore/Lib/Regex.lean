import RubbishStore.Lib.Replace
import Mathlib.Data.List.Basic

/- Regular expressions with a backtracking matcher. `Matches` says which texts an
   expression describes. `ends` runs it from a position and lists where it can stop,
   the preferred way first: the left branch of an alternative, one more round of a
   greedy repetition, one less of a lazy one. It stops exactly behind the texts that
   the expression describes (`mem_ends_iff`), so a search finds something exactly when
   the text holds one of them (`search_isSome_iff`). -/
namespace RubbishStore.Lib

inductive Re (α : Type) where
  | eps
  | atom (p : α → Bool)
  | seq (r s : Re α)
  | alt (r s : Re α)
  | star (greedy : Bool) (r : Re α)
  | group (r : Re α)

namespace Re

variable {α : Type}

/-- One or more. -/
def plus (greedy : Bool) (r : Re α) : Re α := .seq r (.star greedy r)

def opt (r : Re α) : Re α := .alt r .eps

/-- A literal, up to what `fold` takes as equal. -/
def literal [DecidableEq α] (fold : α → α) (s : List α) : Re α :=
  s.foldr (fun a r => .seq (.atom fun b => fold b = fold a) r) .eps

inductive Matches : Re α → List α → Prop
  | eps : Matches .eps []
  | atom {p : α → Bool} {a : α} (h : p a = true) : Matches (.atom p) [a]
  | seq {r s : Re α} {u v : List α} (hr : Matches r u) (hs : Matches s v) :
      Matches (.seq r s) (u ++ v)
  | left {r s : Re α} {u : List α} (h : Matches r u) : Matches (.alt r s) u
  | right {r s : Re α} {u : List α} (h : Matches s u) : Matches (.alt r s) u
  | done {greedy : Bool} {r : Re α} : Matches (.star greedy r) []
  | more {greedy : Bool} {r : Re α} {u v : List α} (hne : u ≠ []) (hr : Matches r u)
      (hs : Matches (.star greedy r) v) : Matches (.star greedy r) (u ++ v)
  | group {r : Re α} {u : List α} (h : Matches r u) : Matches (.group r) u

/-- What is left of the text, and the texts of the groups that have been closed. -/
structure Position (α : Type) where
  rest : List α
  groups : List (List α)
  deriving DecidableEq, Repr

/-- Rounds of a repetition, each of which takes something. -/
def rounds (greedy : Bool) (step : Position α → List (Position α)) :
    Nat → Position α → List (Position α)
  | 0, pos => [pos]
  | n + 1, pos =>
    let more := (step pos).flatMap fun next =>
      if next.rest.length < pos.rest.length then rounds greedy step n next else []
    if greedy then more ++ [pos] else pos :: more

def ends : Re α → Position α → List (Position α)
  | .eps, pos => [pos]
  | .atom p, pos =>
    match pos.rest with
    | [] => []
    | a :: rest => if p a then [⟨rest, pos.groups⟩] else []
  | .seq r s, pos => (ends r pos).flatMap (ends s)
  | .alt r s, pos => ends r pos ++ ends s pos
  | .star greedy r, pos => rounds greedy (ends r) pos.rest.length pos
  | .group r, pos => (ends r pos).map fun next =>
      ⟨next.rest, next.groups ++ [pos.rest.take (pos.rest.length - next.rest.length)]⟩

/-- The length of the preferred match at the front of a text. -/
def matchLength (r : Re α) (s : List α) : Option Nat :=
  (ends r ⟨s, []⟩).head?.map fun pos => s.length - pos.rest.length

/-- The end of the first match in a text, with its groups. -/
def search (r : Re α) : List α → Option (Position α)
  | [] => (ends r ⟨[], []⟩).head?
  | a :: s => (ends r ⟨a :: s, []⟩).head?.or (search r s)

/-- Whether the empty text is described. -/
def nullable : Re α → Bool
  | .eps => true
  | .atom _ => false
  | .seq r s => nullable r && nullable s
  | .alt r s => nullable r || nullable s
  | .star _ _ => true
  | .group r => nullable r

theorem nullable_of_matches {r : Re α} {u : List α} (h : Matches r u) (hu : u = []) :
    nullable r = true := by
  induction h with
  | eps => rfl
  | atom => cases hu
  | seq hr hs ihr ihs =>
    obtain ⟨hu, hv⟩ := List.append_eq_nil_iff.mp hu
    rw [nullable, ihr hu, ihs hv]
    rfl
  | left h ih => rw [nullable, ih hu, Bool.true_or]
  | right h ih => rw [nullable, ih hu, Bool.or_true]
  | done => rfl
  | more => rfl
  | group h ih => rw [nullable, ih hu]

theorem matches_alt_iff {r s : Re α} {u : List α} : Matches (.alt r s) u ↔ Matches r u ∨ Matches s u := by
  constructor
  · intro h
    cases h with
    | left h => exact .inl h
    | right h => exact .inr h
  · exact fun h => h.elim .left .right

theorem matches_group_iff {r : Re α} {u : List α} : Matches (.group r) u ↔ Matches r u := by
  refine ⟨fun h => ?_, .group⟩
  cases h with
  | group h => exact h

theorem matches_atom_iff {p : α → Bool} {u : List α} : Matches (.atom p) u ↔ ∃ a, p a = true ∧ u = [a] := by
  refine ⟨fun h => ?_, fun h => ?_⟩
  · cases h with
    | atom h => exact ⟨_, h, rfl⟩
  · obtain ⟨a, h, rfl⟩ := h
    exact .atom h

theorem matches_seq_iff {r s : Re α} {w : List α} :
    Matches (.seq r s) w ↔ ∃ u v, Matches r u ∧ Matches s v ∧ w = u ++ v := by
  refine ⟨fun h => ?_, fun h => ?_⟩
  · cases h with
    | seq hr hs => exact ⟨_, _, hr, hs, rfl⟩
  · obtain ⟨u, v, hr, hs, rfl⟩ := h
    exact .seq hr hs

/-- The first of a sequence takes one element. -/
theorem matches_atom_seq_iff {p : α → Bool} {r : Re α} {a : α} {u : List α} :
    Matches (.seq (.atom p) r) (a :: u) ↔ p a = true ∧ Matches r u := by
  rw [matches_seq_iff]
  refine ⟨fun h => ?_, fun h => ?_⟩
  · obtain ⟨v, w, hv, hw, hsplit⟩ := h
    obtain ⟨b, hb, rfl⟩ := matches_atom_iff.mp hv
    injection hsplit with hab huw
    exact ⟨hab ▸ hb, huw ▸ hw⟩
  · obtain ⟨ha, hu⟩ := h
    exact ⟨[a], u, .atom ha, hu, rfl⟩

theorem matches_star_one {greedy : Bool} {r : Re α} {u : List α} (hu : u ≠ []) (h : Matches r u) :
    Matches (.star greedy r) u := by
  have hone : Matches (.star greedy r) (u ++ []) := .more hu h .done
  rwa [List.append_nil] at hone

theorem matches_literal_iff [DecidableEq α] {fold : α → α} {s u : List α} :
    Matches (literal fold s) u ↔ u.map fold = s.map fold := by
  induction s generalizing u with
  | nil =>
    rw [List.map_nil, List.map_eq_nil_iff]
    refine ⟨fun h => ?_, fun h => ?_⟩
    · cases h with
      | eps => rfl
    · obtain rfl := h
      exact .eps
  | cons a s ih =>
    refine ⟨fun h => ?_, fun h => ?_⟩
    · cases h with
      | seq hr hs =>
        cases hr with
        | atom hp => rw [List.singleton_append, List.map_cons, List.map_cons, of_decide_eq_true hp, ih.mp hs]
    · cases u with
      | nil => cases h
      | cons b u =>
        rw [List.map_cons, List.map_cons, List.cons.injEq] at h
        show Matches (.seq (.atom fun b => decide (fold b = fold a)) (literal fold s)) ([b] ++ u)
        exact .seq (.atom (decide_eq_true h.1)) (ih.mpr h.2)

theorem matches_star_iff {greedy : Bool} {r : Re α} {w : List α} :
    Matches (.star greedy r) w ↔
      w = [] ∨ ∃ u v, u ≠ [] ∧ Matches r u ∧ Matches (.star greedy r) v ∧ w = u ++ v := by
  refine ⟨fun h => ?_, fun h => ?_⟩
  · cases h with
    | done => exact .inl rfl
    | more hne hr hs => exact .inr ⟨_, _, hne, hr, hs, rfl⟩
  · rcases h with rfl | ⟨u, v, hne, hr, hs, rfl⟩
    · exact .done
    · exact .more hne hr hs

/-- A step that stops behind the texts of `r`, whatever the groups. -/
def Steps (step : Position α → List (Position α)) (r : Re α) : Prop :=
  ∀ pos rest, (∃ next ∈ step pos, next.rest = rest) ↔ ∃ u, Matches r u ∧ pos.rest = u ++ rest

/-- Either no round, or a first one that takes something and the others. -/
theorem mem_rounds_succ {greedy : Bool} {step : Position α → List (Position α)} {n : Nat}
    {pos next : Position α} : next ∈ rounds greedy step (n + 1) pos ↔
      next = pos ∨ ∃ mid ∈ step pos, mid.rest.length < pos.rest.length ∧
        next ∈ rounds greedy step n mid := by
  have hmore : (next ∈ (step pos).flatMap fun mid =>
      if mid.rest.length < pos.rest.length then rounds greedy step n mid else []) ↔
      ∃ mid ∈ step pos, mid.rest.length < pos.rest.length ∧ next ∈ rounds greedy step n mid := by
    simp only [List.mem_flatMap, List.mem_ite_nil_right]
  cases greedy with
  | false => rw [rounds, if_neg Bool.false_ne_true, List.mem_cons, hmore]
  | true => rw [rounds, if_pos rfl, List.mem_append, List.mem_singleton, hmore, or_comm]

theorem mem_rounds_iff {greedy : Bool} {step : Position α → List (Position α)} {r : Re α}
    (h : Steps step r) (n : Nat) (pos : Position α) (hn : pos.rest.length ≤ n) (rest : List α) :
    (∃ next ∈ rounds greedy step n pos, next.rest = rest) ↔
      ∃ u, Matches (.star greedy r) u ∧ pos.rest = u ++ rest := by
  -- induction on the rounds left; each takes something, so they are enough
  induction n generalizing pos with
  | zero =>
    have hnil : pos.rest = [] := List.length_eq_zero_iff.mp (Nat.le_zero.mp hn)
    simp only [rounds, List.mem_singleton, exists_eq_left, hnil]
    refine ⟨fun hx => ?_, fun hx => ?_⟩
    · obtain rfl := hx
      exact ⟨[], .done, rfl⟩
    · obtain ⟨u, -, hu⟩ := hx
      exact (List.append_eq_nil_iff.mp hu.symm).2.symm
  | succ n ih =>
    refine ⟨fun hx => ?_, fun hx => ?_⟩
    · obtain ⟨next, hnext, rfl⟩ := hx
      rcases mem_rounds_succ.mp hnext with rfl | ⟨mid, hmid, hlt, hnext⟩
      · exact ⟨[], .done, rfl⟩
      · obtain ⟨u, hu, hsplit⟩ := (h pos mid.rest).mp ⟨mid, hmid, rfl⟩
        obtain ⟨v, hv, hrest⟩ := (ih mid (by omega)).mp ⟨next, hnext, rfl⟩
        have hne : u ≠ [] := by
          rintro rfl
          rw [hsplit] at hlt
          simp at hlt
        exact ⟨u ++ v, .more hne hu hv, by rw [hsplit, hrest, List.append_assoc]⟩
    · obtain ⟨w, hw, hsplit⟩ := hx
      rcases matches_star_iff.mp hw with rfl | ⟨u, v, hne, hu, hv, rfl⟩
      · exact ⟨pos, mem_rounds_succ.mpr (.inl rfl), hsplit⟩
      · rw [List.append_assoc] at hsplit
        obtain ⟨mid, hmid, hmid_rest⟩ := (h pos (v ++ rest)).mpr ⟨u, hu, hsplit⟩
        have hlt : mid.rest.length < pos.rest.length := by
          have hpos := List.length_pos_iff.mpr hne
          simp only [hmid_rest, hsplit, List.length_append]
          omega
        obtain ⟨next, hnext, hrest⟩ := (ih mid (by omega)).mpr ⟨v, hv, hmid_rest⟩
        exact ⟨next, mem_rounds_succ.mpr (.inr ⟨mid, hmid, hlt, hnext⟩), hrest⟩

theorem steps_atom (p : α → Bool) : Steps (ends (.atom p)) (.atom p) := by
  intro pos rest
  refine ⟨fun h => ?_, fun h => ?_⟩
  · obtain ⟨next, hnext, rfl⟩ := h
    rw [ends] at hnext
    split at hnext
    · cases hnext
    · next a tail hpos =>
      split at hnext
      · next hp =>
        rw [List.mem_singleton] at hnext
        exact ⟨[a], .atom hp, by rw [hnext, hpos]; rfl⟩
      · cases hnext
  · obtain ⟨u, hu, hrest⟩ := h
    obtain ⟨a, hp, rfl⟩ := matches_atom_iff.mp hu
    refine ⟨⟨rest, pos.groups⟩, ?_, rfl⟩
    rw [ends, hrest, List.singleton_append]
    simp only [hp, if_true, List.mem_singleton]

/-- One after the other. -/
theorem Steps.seq {f g : Position α → List (Position α)} {r s : Re α} (hf : Steps f r) (hg : Steps g s) :
    Steps (fun pos => (f pos).flatMap g) (.seq r s) := by
  intro pos rest
  simp only [List.mem_flatMap]
  refine ⟨fun h => ?_, fun h => ?_⟩
  · obtain ⟨next, ⟨mid, hmid, hnext⟩, hrest⟩ := h
    obtain ⟨u, hu, hsplit⟩ := (hf pos mid.rest).mp ⟨mid, hmid, rfl⟩
    obtain ⟨v, hv, hmid_rest⟩ := (hg mid rest).mp ⟨next, hnext, hrest⟩
    exact ⟨u ++ v, .seq hu hv, by rw [hsplit, hmid_rest, List.append_assoc]⟩
  · obtain ⟨w, hw, hsplit⟩ := h
    obtain ⟨u, v, hu, hv, rfl⟩ := matches_seq_iff.mp hw
    rw [List.append_assoc] at hsplit
    obtain ⟨mid, hmid, hmid_rest⟩ := (hf pos (v ++ rest)).mpr ⟨u, hu, hsplit⟩
    obtain ⟨next, hnext, hrest⟩ := (hg mid rest).mpr ⟨v, hv, hmid_rest⟩
    exact ⟨next, ⟨mid, hmid, hnext⟩, hrest⟩

/-- Either of two. -/
theorem Steps.alt {f g : Position α → List (Position α)} {r s : Re α} (hf : Steps f r) (hg : Steps g s) :
    Steps (fun pos => f pos ++ g pos) (.alt r s) := by
  intro pos rest
  simp only [List.mem_append, or_and_right, exists_or]
  rw [hf, hg, ← exists_or]
  refine exists_congr fun u => ?_
  rw [matches_alt_iff, or_and_right]

/-- The groups do not matter. -/
theorem Steps.group {f : Position α → List (Position α)} {r : Re α} (hf : Steps f r)
    (groups : Position α → Position α → List (List α)) :
    Steps (fun pos => (f pos).map fun next => ⟨next.rest, groups pos next⟩) (.group r) := by
  intro pos rest
  simp only [List.mem_map, exists_exists_and_eq_and]
  rw [hf]
  exact exists_congr fun u => and_congr_left' matches_group_iff.symm

/-- The matcher stops behind the texts that the expression describes, and only there. -/
theorem mem_ends_iff (r : Re α) : Steps (ends r) r := by
  induction r with
  | eps =>
    intro pos rest
    simp only [ends, List.mem_singleton, exists_eq_left]
    refine ⟨fun h => ⟨[], .eps, h⟩, fun ⟨u, hu, hrest⟩ => ?_⟩
    cases hu
    exact hrest
  | atom p => exact steps_atom p
  | seq r s ihr ihs => exact ihr.seq ihs
  | alt r s ihr ihs => exact ihr.alt ihs
  | star greedy r ih =>
    exact fun pos rest => mem_rounds_iff ih pos.rest.length pos (Nat.le_refl _) rest
  | group r ih => exact ih.group _

theorem matchLength_eq_none_iff {r : Re α} {s : List α} :
    matchLength r s = none ↔ ∀ u, Matches r u → ¬ u <+: s := by
  rw [matchLength, Option.map_eq_none_iff, List.head?_eq_none_iff]
  constructor
  · rintro hnil u hu ⟨rest, rfl⟩
    obtain ⟨next, hnext, -⟩ := (mem_ends_iff r ⟨u ++ rest, []⟩ rest).mpr ⟨u, hu, rfl⟩
    rw [hnil] at hnext
    cases hnext
  · intro h
    rw [List.eq_nil_iff_forall_not_mem]
    intro next hnext
    obtain ⟨u, hu, hsplit⟩ := (mem_ends_iff r ⟨s, []⟩ next.rest).mp ⟨next, hnext, rfl⟩
    exact h u hu ⟨next.rest, hsplit.symm⟩

theorem matches_of_matchLength {r : Re α} {s : List α} {n : Nat} (h : matchLength r s = some n) :
    Matches r (s.take n) := by
  obtain ⟨next, hnext, rfl⟩ := Option.map_eq_some_iff.mp h
  obtain ⟨u, hu, hsplit⟩ :=
    (mem_ends_iff r ⟨s, []⟩ next.rest).mp ⟨next, List.mem_of_mem_head? hnext, rfl⟩
  simp only at hsplit
  have hlength : s.length - next.rest.length = u.length := by
    rw [hsplit, List.length_append, Nat.add_sub_cancel]
  rw [hlength, hsplit, List.take_left]
  exact hu

theorem search_isSome_iff {r : Re α} {s : List α} :
    (search r s).isSome ↔ ∃ u, Matches r u ∧ u <:+: s := by
  have hfront : ∀ t : List α, (ends r ⟨t, []⟩).head?.isSome ↔ ∃ u, Matches r u ∧ u <+: t := by
    intro t
    rw [← not_iff_not, Bool.not_eq_true, Option.isSome_eq_false_iff, Option.isNone_iff_eq_none]
    have hnone := @matchLength_eq_none_iff α r t
    rw [matchLength, Option.map_eq_none_iff] at hnone
    rw [hnone]
    simp only [not_exists, not_and]
  induction s with
  | nil =>
    rw [search, hfront]
    simp only [List.prefix_nil, List.infix_nil]
  | cons a s ih =>
    rw [search, Option.isSome_or, Bool.or_eq_true]
    refine (or_congr (hfront (a :: s)) ih).trans ?_
    simp only [List.infix_cons_iff, and_or_left, exists_or]

theorem matches_star_atom_iff {greedy : Bool} {p : α → Bool} {u : List α} :
    Matches (.star greedy (.atom p)) u ↔ ∀ a ∈ u, p a = true := by
  induction u with
  | nil => exact ⟨fun _ => List.forall_mem_nil _, fun _ => .done⟩
  | cons a u ih =>
    rw [List.forall_mem_cons, ← ih, matches_star_iff]
    refine ⟨fun h => ?_, fun h => ?_⟩
    · rcases h with hnil | ⟨v, w, -, hv, hw, hsplit⟩
      · cases hnil
      · obtain ⟨b, hb, rfl⟩ := matches_atom_iff.mp hv
        injection hsplit with hab huw
        exact ⟨hab ▸ hb, huw ▸ hw⟩
    · obtain ⟨ha, hu⟩ := h
      exact .inr ⟨[a], u, List.cons_ne_nil a [], .atom ha, hu, rfl⟩

theorem matches_plus_atom_iff {greedy : Bool} {p : α → Bool} {u : List α} :
    Matches (plus greedy (.atom p)) u ↔ u ≠ [] ∧ ∀ a ∈ u, p a = true := by
  cases u with
  | nil =>
    refine ⟨fun h => ?_, fun h => absurd rfl h.1⟩
    cases nullable_of_matches h rfl
  | cons a u =>
    rw [plus, matches_atom_seq_iff, matches_star_atom_iff, List.forall_mem_cons]
    exact ⟨fun h => ⟨List.cons_ne_nil a u, h⟩, fun h => h.2⟩

/-! The first end of a sequence. -/

theorem head?_ends_seq (r s : Re α) (pos : Position α) :
    (ends (.seq r s) pos).head? = (ends r pos).findSome? fun next => (ends s next).head? := List.head?_flatMap

theorem head?_ends_atom_seq_cons (p : α → Bool) (s : Re α) (a : α) (rest : List α) (groups : List (List α)) :
    (ends (.seq (.atom p) s) ⟨a :: rest, groups⟩).head? = if p a then (ends s ⟨rest, groups⟩).head? else none := by
  rw [head?_ends_seq, ends]
  dsimp only
  split
  · rw [List.findSome?_singleton]
  · rfl

theorem head?_ends_atom_seq_nil (p : α → Bool) (s : Re α) (groups : List (List α)) :
    (ends (.seq (.atom p) s) ⟨[], groups⟩).head? = none := rfl

/-- As few elements as possible: none, or one more. -/
theorem ends_lazy_cons (p : α → Bool) (a : α) (rest : List α) (groups : List (List α)) :
    ends (.star false (.atom p)) ⟨a :: rest, groups⟩ =
      ⟨a :: rest, groups⟩ :: if p a then ends (.star false (.atom p)) ⟨rest, groups⟩ else [] := by
  have hstep : ends (.atom p) ⟨a :: rest, groups⟩ = if p a then [⟨rest, groups⟩] else [] := rfl
  have hrounds : ends (.star false (.atom p)) ⟨a :: rest, groups⟩ =
      ⟨a :: rest, groups⟩ :: (ends (.atom p) ⟨a :: rest, groups⟩).flatMap fun next =>
        if next.rest.length < (a :: rest).length then rounds false (ends (.atom p)) rest.length next else [] := rfl
  rw [hrounds, hstep]
  split
  · have hshorter : rest.length < (a :: rest).length := Nat.lt_succ_self _
    rw [List.flatMap_singleton, if_pos hshorter]
    rfl
  · rfl

theorem ends_lazy_nil (p : α → Bool) (groups : List (List α)) :
    ends (.star false (.atom p)) ⟨[], groups⟩ = [⟨[], groups⟩] := rfl

theorem head?_ends_atom_cons (p : α → Bool) (a : α) (rest : List α) (groups : List (List α)) :
    (ends (.atom p) ⟨a :: rest, groups⟩).head? = if p a then some ⟨rest, groups⟩ else none := by
  rw [ends]
  dsimp only
  split
  · rfl
  · rfl

/-- Repetitions that cannot stop in front of one more stop behind the last. -/
theorem findSome?_ends_lazy {γ : Type} {p : α → Bool} {f : Position α → Option γ}
    (hf : ∀ a rest groups, p a = true → f ⟨a :: rest, groups⟩ = none) (s : List α) (groups : List (List α)) :
    (ends (.star false (.atom p)) ⟨s, groups⟩).findSome? f = f ⟨s.dropWhile p, groups⟩ := by
  induction s with
  | nil => rw [ends_lazy_nil, List.findSome?_singleton, List.dropWhile_nil]
  | cons a s ih =>
    rw [ends_lazy_cons, List.findSome?_cons]
    cases ha : p a with
    | true =>
      rw [hf a s groups ha, List.dropWhile_cons_of_pos ha]
      exact ih
    | false =>
      rw [List.dropWhile_cons_of_neg (by rw [ha]; exact Bool.false_ne_true)]
      cases f ⟨a :: s, groups⟩ with
      | none => rfl
      | some c => rfl

/-- A group of elements of one kind, as few as possible but at least one, in front of what
    does not begin with one: it has all of them. -/
theorem head?_ends_word {p : α → Bool} {tail : Re α} {f : List α → Option (List α)}
    (htail : ∀ s groups, (ends tail ⟨s, groups⟩).head? = (f s).map fun rest => ⟨rest, groups⟩)
    (hf : ∀ a rest, p a = true → f (a :: rest) = none) (s : List α) :
    (ends (.seq (.group (.plus false (.atom p))) tail) ⟨s, []⟩).head? =
      if s.takeWhile p = [] then none
      else (f (s.dropWhile p)).map fun rest => ⟨rest, [s.takeWhile p]⟩ := by
  have hgroup : ends (.group (.plus false (.atom p))) ⟨s, []⟩ =
      (ends (.plus false (.atom p)) ⟨s, []⟩).map fun next =>
        ⟨next.rest, next.groups ++ [s.take (s.length - next.rest.length)]⟩ := rfl
  rw [head?_ends_seq, hgroup, List.findSome?_map]
  cases s with
  | nil => rfl
  | cons a s =>
    cases ha : p a with
    | false =>
      have hnone : ends (.plus false (.atom p)) ⟨a :: s, []⟩ = [] := by
        simp [plus, ends, ha]
      rw [hnone, List.takeWhile_cons_of_neg (by rw [ha]; exact Bool.false_ne_true), if_pos rfl]
      rfl
    | true =>
      have hplus : ends (.plus false (.atom p)) ⟨a :: s, []⟩ = ends (.star false (.atom p)) ⟨s, []⟩ := by
        simp [plus, ends, ha]
      have htaken : (a :: s).take ((a :: s).length - (s.dropWhile p).length) = a :: s.takeWhile p := by
        have hlength : (a :: s).length - (s.dropWhile p).length = (s.takeWhile p).length + 1 := by
          have hsum := congrArg List.length (List.takeWhile_append_dropWhile (p := p) (l := s))
          rw [List.length_append] at hsum
          rw [List.length_cons]
          omega
        rw [hlength, List.take_succ_cons, ← List.prefix_iff_eq_take.mp (List.takeWhile_prefix p)]
      rw [hplus, findSome?_ends_lazy, List.takeWhile_cons_of_pos ha, List.dropWhile_cons_of_pos ha,
        if_neg (List.cons_ne_nil _ _)]
      · simp only [Function.comp, htail, htaken, List.nil_append]
      · intro b rest groups hb
        simp only [Function.comp, htail, hf b rest hb, Option.map_none]

/-! What the groups of an expression hold. -/

section groups

/-- Whatever the inside of a group describes is a `P`. -/
def GroupsAll (P : List α → Prop) : Re α → Prop
  | .eps => True
  | .atom _ => True
  | .seq r s => GroupsAll P r ∧ GroupsAll P s
  | .alt r s => GroupsAll P r ∧ GroupsAll P s
  | .star _ r => GroupsAll P r
  | .group r => (∀ u, Matches r u → P u) ∧ GroupsAll P r

variable {P : List α → Prop}

theorem groupsAll_literal [DecidableEq α] (P : List α → Prop) (fold : α → α) (s : List α) :
    GroupsAll P (literal fold s) := by
  induction s with
  | nil => exact trivial
  | cons a s ih => exact ⟨trivial, ih⟩

theorem groups_rounds {greedy : Bool} {step : Position α → List (Position α)}
    (h : ∀ pos, (∀ u ∈ pos.groups, P u) → ∀ next ∈ step pos, ∀ u ∈ next.groups, P u) (n : Nat)
    {pos : Position α} (hpos : ∀ u ∈ pos.groups, P u) :
    ∀ next ∈ rounds greedy step n pos, ∀ u ∈ next.groups, P u := by
  induction n generalizing pos with
  | zero =>
    intro next hnext
    rw [rounds, List.mem_singleton] at hnext
    rw [hnext]
    exact hpos
  | succ n ih =>
    intro next hnext
    rcases mem_rounds_succ.mp hnext with rfl | ⟨mid, hmid, -, hnext⟩
    · exact hpos
    · exact ih (h pos hpos mid hmid) next hnext

theorem groups_ends {r : Re α} (hr : GroupsAll P r) (pos : Position α) (hpos : ∀ u ∈ pos.groups, P u) :
    ∀ next ∈ ends r pos, ∀ u ∈ next.groups, P u := by
  induction r generalizing pos with
  | eps =>
    intro next hnext
    rw [ends, List.mem_singleton] at hnext
    rw [hnext]
    exact hpos
  | atom p =>
    intro next hnext
    rw [ends] at hnext
    split at hnext
    · cases hnext
    · split at hnext
      · rw [List.mem_singleton] at hnext
        rw [hnext]
        exact hpos
      · cases hnext
  | seq r s ihr ihs =>
    intro next hnext
    obtain ⟨mid, hmid, hnext⟩ := List.mem_flatMap.mp hnext
    exact ihs hr.2 mid (ihr hr.1 pos hpos mid hmid) next hnext
  | alt r s ihr ihs =>
    intro next hnext
    rcases List.mem_append.mp hnext with hnext | hnext
    · exact ihr hr.1 pos hpos next hnext
    · exact ihs hr.2 pos hpos next hnext
  | star greedy r ih =>
    -- every round adds the groups of `r` to those before
    exact groups_rounds (fun pos hpos => ih hr pos hpos) _ hpos
  | group r ih =>
    intro next hnext
    obtain ⟨mid, hmid, rfl⟩ := List.mem_map.mp hnext
    obtain ⟨u, hu, hsplit⟩ := (mem_ends_iff r pos mid.rest).mp ⟨mid, hmid, rfl⟩
    have htaken : pos.rest.take (pos.rest.length - mid.rest.length) = u := by
      rw [hsplit, List.length_append, Nat.add_sub_cancel, List.take_left]
    intro v hv
    rw [htaken] at hv
    rcases List.mem_append.mp hv with hv | hv
    · exact ih hr.2 pos hpos mid hmid v hv
    · rw [List.mem_singleton.mp hv]
      exact hr.1 u hu

theorem groups_search {r : Re α} (hr : GroupsAll P r) {s : List α} {pos : Position α}
    (h : search r s = some pos) : ∀ u ∈ pos.groups, P u := by
  have hfront : ∀ t : List α, (ends r ⟨t, []⟩).head? = some pos → ∀ u ∈ pos.groups, P u :=
    fun t ht => groups_ends hr ⟨t, []⟩ (List.forall_mem_nil _) pos (List.mem_of_mem_head? ht)
  induction s with
  | nil => exact hfront [] h
  | cons a s ih =>
    rw [search, Option.or_eq_some_iff] at h
    rcases h with h | ⟨-, h⟩
    · exact hfront (a :: s) h
    · exact ih h

end groups

/-! Deleting what an expression describes that does not describe the empty text. -/

section delete
open Replace

theorem hit_iff {r : Re α} (hr : nullable r = false) {s : List α} :
    Hit (matchLength r) s ↔ ∃ u, Matches r u ∧ u <+: s := by
  refine ⟨fun h => ?_, fun h => ?_⟩
  · obtain ⟨length, hlength⟩ := h
    exact ⟨_, matches_of_matchLength hlength, List.take_prefix _ s⟩
  · obtain ⟨u, hu, hpre⟩ := h
    cases hlength : matchLength r s with
    | none => exact absurd hpre (matchLength_eq_none_iff.mp hlength u hu)
    | some n =>
      cases n with
      | zero =>
        have hnull := nullable_of_matches (matches_of_matchLength hlength) List.take_zero
        rw [hr] at hnull
        cases hnull
      | succ length => exact ⟨length, hlength⟩

theorem matchLength_eq_none_of_miss {r : Re α} (hr : nullable r = false) {s : List α}
    (h : ∀ length, matchLength r s ≠ some (length + 1)) : matchLength r s = none := by
  rw [matchLength_eq_none_iff]
  intro u hu hpre
  obtain ⟨length, hlength⟩ := (hit_iff hr).mpr ⟨u, hu, hpre⟩
  exact h length hlength

/-- A text is left alone exactly when it holds nothing that is described. -/
theorem delete_eq_iff {r : Re α} (hr : nullable r = false) {s : List α} :
    delete (matchLength r) s = s ↔ ∀ u, Matches r u → ¬ u <:+: s := by
  have hne : ∀ u, Matches r u → u ≠ [] := by
    rintro u hu rfl
    rw [nullable_of_matches hu rfl] at hr
    cases hr
  simp only [delete_eq_self_iff, hit_iff hr]
  constructor
  · intro h u hu hinfix
    obtain ⟨t, hpre, hsuf⟩ := List.infix_iff_prefix_suffix.mp hinfix
    have ht : t ≠ [] := fun ht => hne u hu (List.prefix_nil.mp (ht ▸ hpre))
    exact h t hsuf ht ⟨u, hu, hpre⟩
  · rintro h t hsuf - ⟨u, hu, hpre⟩
    exact h u hu (hpre.isInfix.trans hsuf.isInfix)

/-- One expression after the other. -/
def deleteAll (rs : List (Re α)) (s : List α) : List α :=
  rs.foldl (fun s r => delete (matchLength r) s) s

theorem deleteAll_sublist (rs : List (Re α)) (s : List α) : (deleteAll rs s).Sublist s := by
  induction rs generalizing s with
  | nil => exact List.Sublist.refl s
  | cons r rs ih => exact (ih _).trans (delete_sublist s)

/-- Nothing is deleted by the chain exactly when no link deletes anything. -/
theorem deleteAll_eq_iff {rs : List (Re α)} {s : List α} :
    deleteAll rs s = s ↔ ∀ r ∈ rs, delete (matchLength r) s = s := by
  induction rs with
  | nil => exact ⟨fun _ => List.forall_mem_nil _, fun _ => rfl⟩
  | cons r rs ih =>
    have hcons : deleteAll (r :: rs) s = deleteAll rs (delete (matchLength r) s) := rfl
    rw [List.forall_mem_cons, ← ih, hcons]
    refine ⟨fun h => ?_, fun h => ?_⟩
    · have hrest := deleteAll_sublist rs (delete (matchLength r) s)
      rw [h] at hrest
      have hfirst : delete (matchLength r) s = s := (delete_sublist s).antisymm hrest
      rw [hfirst] at h
      exact ⟨hfirst, h⟩
    · obtain ⟨hfirst, h⟩ := h
      rw [hfirst, h]

/-- The chain on the elements of a text with their positions. -/
def deleteAllAt {β : Type} (f : β → α) (rs : List (Re α)) (s : List β) : List β :=
  rs.foldl (fun s r => delete (fun t => matchLength r (t.map f)) s) s

theorem deleteAllAt_sublist {β : Type} (f : β → α) (rs : List (Re α)) (s : List β) :
    (deleteAllAt f rs s).Sublist s := by
  induction rs generalizing s with
  | nil => exact List.Sublist.refl s
  | cons r rs ih => exact (ih _).trans (delete_sublist s)

theorem map_deleteAllAt {β : Type} (f : β → α) (rs : List (Re α)) (s : List β) :
    (deleteAllAt f rs s).map f = deleteAll rs (s.map f) := by
  induction rs generalizing s with
  | nil => rfl
  | cons r rs ih =>
    have hfirst : (delete (fun t => matchLength r (t.map f)) s).map f =
        delete (matchLength r) (s.map f) := substitute_map f [] 0 s
    exact (ih _).trans (congrArg (deleteAll rs) hfirst)

/-- A window of the text that the chain leaves as a window is described by no link. -/
theorem not_matches_of_infix {β : Type} (f : β → α) {rs : List (Re α)}
    (hrs : ∀ r ∈ rs, nullable r = false) {s : List β} (hs : s.Nodup) {w : List β}
    (hleft : w <:+: deleteAllAt f rs s) (hw : w <:+: s) : ∀ r ∈ rs, ¬ Matches r (w.map f) := by
  induction rs generalizing s with
  | nil => exact List.forall_mem_nil _
  | cons r rs ih =>
    obtain ⟨hr, hrs⟩ := List.forall_mem_cons.mp hrs
    have hfirst := @delete_sublist _ (fun t => matchLength r (t.map f)) s
    have hmem : ∀ a ∈ w, a ∈ delete (fun t => matchLength r (t.map f)) s := fun a ha =>
      (deleteAllAt_sublist f rs _).subset (hleft.subset ha)
    rw [List.forall_mem_cons]
    refine ⟨fun hmatch => ?_, ih hrs (hs.sublist hfirst) hleft (infix_of_sublist hs hfirst hw hmem)⟩
    cases w with
    | nil =>
      rw [nullable_of_matches hmatch rfl] at hr
      cases hr
    | cons a w =>
      obtain ⟨t, hmiss⟩ := miss_of_infix hs (hmem a List.mem_cons_self) hw
      have hhit : Hit (matchLength r) ((a :: w ++ t).map f) := by
        rw [hit_iff hr, List.map_append]
        exact ⟨_, hmatch, List.prefix_append _ _⟩
      exact hmiss hhit

end delete

end Re

end RubbishStore.Lib
