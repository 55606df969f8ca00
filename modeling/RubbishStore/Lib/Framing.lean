import Mathlib.Data.List.Induction

/- Cutting a stream into pieces. `done` looks at what has been collected and says whether
   it is a whole piece; the elements come one by one, so a piece ends at the first element
   with which it is whole. A stream may arrive in parts: cutting goes on with what the part
   before has left (`cut_append`). Pieces that are written one behind the other are read
   as the same pieces (`cut_flatten`). -/
namespace RubbishStore.Lib.Framing

variable {α : Type} (done : List α → Bool)

/-- The whole pieces, of which the first begins with `acc`, and what is left behind them. -/
def cut (acc : List α) : List α → List (List α) × List α
  | [] => ([], acc)
  | a :: s =>
    if done (acc ++ [a]) then ((acc ++ [a]) :: (cut [] s).1, (cut [] s).2) else cut (acc ++ [a]) s

/-- Up to the end of the first piece: what has been collected, and what is behind it. -/
def collect (acc : List α) : List α → List α × List α
  | [] => (acc, [])
  | a :: s => if done (acc ++ [a]) then (acc ++ [a], s) else collect (acc ++ [a]) s

/-- No piece has ended in it. -/
def Open (s : List α) : Prop := ∀ p, p <+: s → p ≠ [] → done p = false

/-- It is whole, and was not so before its last element. -/
structure IsPiece (p : List α) : Prop where
  ne_nil : p ≠ []
  whole : done p = true
  first : Open done p.dropLast

section
variable {done} {acc s t p : List α} {a : α}

theorem open_nil : Open done [] := fun _ hp hne => absurd (List.prefix_nil.mp hp) hne

theorem Open.of_prefix (h : Open done s) (hp : p <+: s) : Open done p := fun q hq => h q (hq.trans hp)

theorem Open.concat (h : Open done s) (ha : done (s ++ [a]) = false) : Open done (s ++ [a]) := by
  intro p hp hne
  rcases List.prefix_concat_iff.mp hp with rfl | hp
  · exact ha
  · exact h p hp hne

theorem Open.not_isPiece (h : Open done s) : ¬ IsPiece done s := by
  intro hpiece
  have hwhole := hpiece.whole
  rw [h s List.prefix_rfl hpiece.ne_nil] at hwhole
  cases hwhole

theorem Open.isPiece (h : Open done s) (ha : done (s ++ [a]) = true) : IsPiece done (s ++ [a]) where
  ne_nil := List.append_ne_nil_of_right_ne_nil _ (List.cons_ne_nil _ _)
  whole := ha
  first := by rwa [List.dropLast_concat]

/-- A beginning of a piece that is not all of it. -/
theorem IsPiece.open_of_prefix (h : IsPiece done p) (hs : s <+: p) (hne : s ≠ p) : Open done s := by
  rw [← List.dropLast_concat_getLast h.ne_nil] at hs hne
  rcases List.prefix_concat_iff.mp hs with heq | hs
  · exact absurd heq hne
  · exact h.first.of_prefix hs

/-! Cutting. -/

theorem cut_append (acc s t : List α) :
    cut done acc (s ++ t) =
      ((cut done acc s).1 ++ (cut done (cut done acc s).2 t).1, (cut done (cut done acc s).2 t).2) := by
  induction s generalizing acc with
  | nil => rfl
  | cons a s ih =>
    rw [List.cons_append, cut, cut]
    by_cases ha : done (acc ++ [a]) = true
    · simp only [if_pos ha, ih, List.cons_append]
    · simp only [if_neg ha, ih]

/-- Nothing is lost, and nothing is put in. -/
theorem flatten_cut (acc s : List α) : (cut done acc s).1.flatten ++ (cut done acc s).2 = acc ++ s := by
  induction s generalizing acc with
  | nil => rw [cut, List.flatten_nil, List.nil_append, List.append_nil]
  | cons a s ih =>
    rw [cut]
    split
    · rw [List.flatten_cons, List.append_assoc, ih, List.nil_append, List.append_assoc]
      rfl
    · rw [ih, List.append_assoc]
      rfl

theorem cut_spec (hacc : Open done acc) (s : List α) :
    (∀ p ∈ (cut done acc s).1, IsPiece done p) ∧ Open done (cut done acc s).2 := by
  induction s generalizing acc with
  | nil => exact ⟨fun p hp => absurd hp List.not_mem_nil, hacc⟩
  | cons a s ih =>
    rw [cut]
    by_cases ha : done (acc ++ [a]) = true
    · rw [if_pos ha]
      obtain ⟨hpieces, hrest⟩ := ih open_nil
      exact ⟨List.forall_mem_cons.mpr ⟨hacc.isPiece ha, hpieces⟩, hrest⟩
    · rw [if_neg ha]
      exact ih (hacc.concat (Bool.eq_false_iff.mpr ha))

theorem cut_open (hs : Open done (acc ++ s)) : cut done acc s = ([], acc ++ s) := by
  induction s generalizing acc with
  | nil => rw [cut, List.append_nil]
  | cons a s ih =>
    rw [List.append_cons] at hs
    have ha : done (acc ++ [a]) = false :=
      hs _ (List.prefix_append _ _) (List.append_ne_nil_of_right_ne_nil _ (List.cons_ne_nil _ _))
    rw [cut, if_neg (Bool.eq_false_iff.mp ha), ih hs, List.append_assoc]
    rfl

theorem cut_piece (hp : IsPiece done (acc ++ s)) (hs : s ≠ []) : cut done acc s = ([acc ++ s], []) := by
  induction s generalizing acc with
  | nil => exact absurd rfl hs
  | cons a s ih =>
    rw [cut]
    by_cases hlast : s = []
    · rw [hlast] at hp ⊢
      rw [if_pos hp.whole]
      rfl
    · rw [List.append_cons] at hp
      have ha : done (acc ++ [a]) = false := by
        refine (hp.open_of_prefix (List.prefix_append _ _) fun heq => ?_) _ List.prefix_rfl
          (List.append_ne_nil_of_right_ne_nil _ (List.cons_ne_nil _ _))
        exact hlast (List.append_right_eq_self.mp heq.symm)
      rw [if_neg (Bool.eq_false_iff.mp ha), ih hp hlast, ← List.append_cons]

/-- Pieces that stand one behind the other, with less than a piece at the end. -/
theorem cut_flatten {ps : List (List α)} (hps : ∀ p ∈ ps, IsPiece done p) {rest : List α} (hrest : Open done rest) :
    cut done [] (ps.flatten ++ rest) = (ps, rest) := by
  induction ps with
  | nil => exact cut_open hrest
  | cons p ps ih =>
    obtain ⟨hp, hps⟩ := List.forall_mem_cons.mp hps
    rw [List.flatten_cons, List.append_assoc, cut_append, cut_piece hp hp.ne_nil, ih hps]
    rfl

/-! The first piece. -/

theorem collect_append (acc s : List α) : (collect done acc s).1 ++ (collect done acc s).2 = acc ++ s := by
  induction s generalizing acc with
  | nil => rfl
  | cons a s ih =>
    rw [collect]
    split
    · rw [List.append_assoc]
      rfl
    · rw [ih, List.append_assoc]
      rfl

/-- Either it is whole, or it has taken everything. -/
theorem collect_cases (hacc : Open done acc) (s : List α) :
    IsPiece done (collect done acc s).1 ∧ cut done acc s =
        ((collect done acc s).1 :: (cut done [] (collect done acc s).2).1, (cut done [] (collect done acc s).2).2) ∨
      Open done (acc ++ s) ∧ collect done acc s = (acc ++ s, []) := by
  induction s generalizing acc with
  | nil =>
    right
    rw [List.append_nil]
    exact ⟨hacc, rfl⟩
  | cons a s ih =>
    rw [cut, collect, show acc ++ a :: s = (acc ++ [a]) ++ s from List.append_cons acc a s]
    by_cases ha : done (acc ++ [a]) = true
    · left
      rw [if_pos ha, if_pos ha]
      exact ⟨hacc.isPiece ha, rfl⟩
    · rw [if_neg ha, if_neg ha]
      exact ih (hacc.concat (Bool.eq_false_iff.mpr ha))

end

end RubbishStore.Lib.Framing
