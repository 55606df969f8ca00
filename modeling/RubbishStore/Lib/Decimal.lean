import Mathlib.Algebra.GroupWithZero.Nat
import Mathlib.Data.List.Basic
import Mathlib.Data.List.Induction
import Mathlib.Data.PNat.Defs
import Mathlib.Logic.Relation

/- Positive numbers written in decimal, one after the other and with nothing
   between them. Two texts of this kind agree when they are cut differently, and
   only then: `text_append_eq_iff` is the cut behind the first number, and
   `flatMap_text_eq_iff` says that two lists of as many numbers have the same text
   just when one turns into the other by moving digits from the end of a number to
   the front of the next, or back. -/
namespace RubbishStore.Lib.Decimal

def text (n : ℕ+) : List Char := Nat.toDigits 10 n

/-- The digits of `x` and then those of `m`. -/
def glue (x m : ℕ+) : ℕ+ :=
  ⟨x * 10 ^ (text m).length + m, Nat.add_pos_right _ m.2⟩

theorem text_injective {m n : ℕ+} (h : text m = text n) : m = n := by
  have hvalue := congrArg (fun s => Nat.ofDigitChars 10 s 0) h
  simp only [text, Nat.ofDigitChars_ten_toDigits] at hvalue
  exact PNat.eq hvalue

theorem text_ne_nil (n : ℕ+) : text n ≠ [] := Nat.toDigits_ne_nil

theorem toDigits_append {x : Nat} (hx : 0 < x) (m : Nat) :
    Nat.toDigits 10 (x * 10 ^ (Nat.toDigits 10 m).length + m) =
      Nat.toDigits 10 x ++ Nat.toDigits 10 m := by
  induction m using Nat.strongRecOn with
  | _ m ih =>
    by_cases hm : m < 10
    · have hlast := Nat.toDigits_append_toDigits (b := 10) (by decide) hx hm
      rw [hlast, Nat.toDigits_of_lt_base hm, List.length_singleton, Nat.pow_one, Nat.mul_comm x]
    · let y := x * 10 ^ (Nat.toDigits 10 (m / 10)).length
      have hfront : Nat.toDigits 10 (y + m / 10) = Nat.toDigits 10 x ++ Nat.toDigits 10 (m / 10) :=
        ih (m / 10) (by omega)
      have hdigits : Nat.toDigits 10 m =
          Nat.toDigits 10 (m / 10) ++ [Nat.digitChar (m % 10)] :=
        Nat.toDigits_of_base_le (by decide) (by omega)
      have hvalue : x * 10 ^ (Nat.toDigits 10 m).length + m = 10 * (y + m / 10) + m % 10 := by
        have hlast := Nat.div_add_mod m 10
        have hpow : x * 10 ^ (Nat.toDigits 10 m).length = y * 10 := by
          rw [hdigits, List.length_append, List.length_singleton, Nat.pow_succ, Nat.mul_assoc]
        omega
      have hy : 0 < y + m / 10 := by omega
      calc Nat.toDigits 10 (x * 10 ^ (Nat.toDigits 10 m).length + m)
          = Nat.toDigits 10 (y + m / 10) ++ Nat.toDigits 10 (m % 10) := by
            rw [hvalue, Nat.toDigits_append_toDigits (by decide) hy (Nat.mod_lt m (by decide))]
        _ = Nat.toDigits 10 x ++ Nat.toDigits 10 m := by
            rw [hfront, hdigits, Nat.toDigits_of_lt_base (Nat.mod_lt m (by decide)),
              List.append_assoc]

theorem text_glue (x m : ℕ+) : text (glue x m) = text x ++ text m :=
  toDigits_append x.2 m

theorem lt_glue (x m : ℕ+) : (x : Nat) < glue x m := by
  have hpow : 0 < 10 ^ (text m).length := Nat.pow_pos (by decide)
  have hle : (x : Nat) ≤ x * 10 ^ (text m).length := Nat.le_mul_of_pos_right x hpow
  have hlt : (x : Nat) < x * 10 ^ (text m).length + m := Nat.lt_of_le_of_lt hle (Nat.lt_add_of_pos_right m.2)
  exact hlt

theorem isDigit_of_mem_text {n : ℕ+} {c : Char} (h : c ∈ text n) : c.isDigit :=
  Nat.isDigit_of_mem_toDigits (by decide) (by decide) h

/-- A text that a number can begin with: it is empty or its first digit is not zero. -/
def Begins (s : List Char) : Prop := s.head? ≠ some '0'

theorem text_begins (n : ℕ+) : Begins (text n) := by
  have hrec : ∀ m : Nat, 0 < m → (Nat.toDigits 10 m).head? ≠ some '0' := by
    intro m
    induction m using Nat.strongRecOn with
    | _ m ih =>
      intro hm
      by_cases hlt : m < 10
      · rw [Nat.toDigits_of_lt_base hlt]
        simpa using Nat.pos_iff_ne_zero.mp hm
      · rw [Nat.toDigits_of_base_le (by decide) (by omega),
          List.head?_append_of_ne_nil _ Nat.toDigits_ne_nil]
        exact ih (m / 10) (by omega) (by omega)
  exact hrec n n.2

theorem text_append_begins (n : ℕ+) (s : List Char) : Begins (text n ++ s) := by
  rw [Begins, List.head?_append_of_ne_nil _ (text_ne_nil n)]
  exact text_begins n

theorem exists_digitChar {c : Char} (h : c.isDigit) : ∃ d < 10, Nat.digitChar d = c := by
  have hrange : 48 ≤ c.toNat ∧ c.toNat ≤ 57 := by
    simp only [Char.isDigit, Bool.and_eq_true, decide_eq_true_eq] at h
    exact h
  refine ⟨c.toNat - 48, by omega, Char.toNat_inj.mp ?_⟩
  rw [Nat.toNat_digitChar_of_lt_ten (by omega)]
  omega

/-- Digits that a number can begin with are the text of a number. -/
theorem exists_text {s : List Char} (hdigits : ∀ c ∈ s, c.isDigit) (hs : Begins s) (hne : s ≠ []) :
    ∃ m, text m = s := by
  induction s using List.reverseRecOn with
  | nil => exact absurd rfl hne
  | append_singleton s c ih =>
    have hc : c.isDigit := hdigits c (by simp)
    obtain ⟨d, hd, rfl⟩ := exists_digitChar hc
    by_cases hnil : s = []
    · subst hnil
      have hpos : 0 < d := by
        have hd0 : Nat.digitChar d ≠ '0' := by simpa [Begins] using hs
        exact Nat.pos_of_ne_zero fun h => hd0 (Nat.digitChar_eq_zero.mpr h)
      exact ⟨⟨d, hpos⟩, Nat.toDigits_of_lt_base hd⟩
    · rw [Begins, List.head?_append_of_ne_nil _ hnil] at hs
      obtain ⟨m, rfl⟩ := ih (fun c h => hdigits c (List.mem_append_left _ h)) hs hnil
      refine ⟨⟨10 * m + d, Nat.add_pos_left (Nat.mul_pos (by decide) m.2) d⟩, ?_⟩
      have hlast := Nat.toDigits_append_toDigits (b := 10) (by decide) m.2 hd
      rw [Nat.toDigits_of_lt_base hd] at hlast
      exact hlast.symm

/-! Texts cut behind the first number. -/

theorem exists_glue {n x : ℕ+} {s : List Char} (h : text n = text x ++ s) (hs : Begins s)
    (hne : s ≠ []) : ∃ m, s = text m ∧ n = glue x m := by
  have hdigits : ∀ c ∈ s, c.isDigit := by
    intro c hc
    exact isDigit_of_mem_text (n := n) (h ▸ List.mem_append_right _ hc)
  obtain ⟨m, rfl⟩ := exists_text hdigits hs hne
  exact ⟨m, rfl, text_injective (h.trans (text_glue x m).symm)⟩

/-- The first number is the same, or one of the two goes on where the other ends. -/
theorem text_append_cases {n n' : ℕ+} {s s' : List Char} (h : text n ++ s = text n' ++ s')
    (hs : Begins s) (hs' : Begins s') :
    (n = n' ∧ s = s') ∨ (∃ m, n' = glue n m ∧ s = text m ++ s') ∨
      ∃ m, n = glue n' m ∧ s' = text m ++ s := by
  obtain ⟨w, hw, rfl⟩ | ⟨w, hw, rfl⟩ := List.append_eq_append_iff.mp h
  · by_cases hne : w = []
    · subst hne
      rw [List.append_nil] at hw
      exact .inl ⟨text_injective hw.symm, rfl⟩
    · rw [Begins, List.head?_append_of_ne_nil _ hne] at hs
      obtain ⟨m, rfl, hm⟩ := exists_glue hw hs hne
      exact .inr (.inl ⟨m, hm, rfl⟩)
  · by_cases hne : w = []
    · subst hne
      rw [List.append_nil] at hw
      exact .inl ⟨text_injective hw, rfl⟩
    · rw [Begins, List.head?_append_of_ne_nil _ hne] at hs'
      obtain ⟨m, rfl, hm⟩ := exists_glue hw hs' hne
      exact .inr (.inr ⟨m, hm, rfl⟩)

/-- Digits move from the end of the first number of `p` to the front of its second
    number, which makes `q` of it. -/
def Moved (p q : ℕ+ × ℕ+) : Prop := ∃ m, p.1 = glue q.1 m ∧ q.2 = glue m p.2

theorem not_moved_self (p : ℕ+ × ℕ+) : ¬ Moved p p := by
  rintro ⟨m, h, -⟩
  exact Nat.ne_of_lt (lt_glue p.1 m) (congrArg PNat.val h)

theorem text_append_eq_iff (p q : ℕ+ × ℕ+) :
    text p.1 ++ text p.2 = text q.1 ++ text q.2 ↔ p = q ∨ Moved p q ∨ Moved q p := by
  refine ⟨fun h => ?_, ?_⟩
  · obtain ⟨h1, h2⟩ | ⟨m, hm, h2⟩ | ⟨m, hm, h2⟩ :=
      text_append_cases h (text_begins p.2) (text_begins q.2)
    · exact .inl (Prod.ext h1 (text_injective h2))
    · rw [← text_glue] at h2
      exact .inr (.inr ⟨m, hm, text_injective h2⟩)
    · rw [← text_glue] at h2
      exact .inr (.inl ⟨m, hm, text_injective h2⟩)
  · rintro (rfl | ⟨m, h1, h2⟩ | ⟨m, h1, h2⟩)
    · rfl
    · rw [h1, h2, text_glue, text_glue, List.append_assoc]
    · rw [h1, h2, text_glue, text_glue, List.append_assoc]

/-- A move between two neighbours of a list. -/
inductive Shift : List ℕ+ → List ℕ+ → Prop where
  | here (x m y : ℕ+) (rest : List ℕ+) : Shift (glue x m :: y :: rest) (x :: glue m y :: rest)
  | there (x : ℕ+) {l l' : List ℕ+} : Shift l l' → Shift (x :: l) (x :: l')

/-- Moves, there or back, lead from the one list to the other. -/
abbrev Recut : List ℕ+ → List ℕ+ → Prop := Relation.EqvGen Shift

theorem Shift.text_eq {l l' : List ℕ+} (h : Shift l l') : l.flatMap text = l'.flatMap text := by
  induction h with
  | here x m y rest => simp [text_glue]
  | there x h ih => simp [ih]

theorem Recut.cons (x : ℕ+) {l l' : List ℕ+} (h : Recut l l') : Recut (x :: l) (x :: l') := by
  induction h with
  | rel l l' h => exact .rel _ _ (.there x h)
  | refl l => exact .refl _
  | symm l l' h ih => exact .symm _ _ ih
  | trans l l' l'' h h' ih ih' => exact .trans _ _ _ ih ih'

theorem Recut.text_eq {l l' : List ℕ+} (h : Recut l l') : l.flatMap text = l'.flatMap text := by
  induction h with
  | rel l l' h => exact h.text_eq
  | refl l => rfl
  | symm l l' h ih => exact ih.symm
  | trans l l' l'' h h' ih ih' => exact ih.trans ih'

theorem flatMap_begins (l : List ℕ+) : Begins (l.flatMap text) := by
  cases l with
  | nil => simp [Begins]
  | cons x l => exact text_append_begins x (l.flatMap text)

/-- The induction step: the number `m` that the first number has more there than
    here comes in front of the next number. -/
theorem recut_glue {x m : ℕ+} {l k : List ℕ+} {n : Nat} (hl : l.length = n) (hk : k.length = n)
    (ih : ∀ k : List ℕ+, k.length = n → l.flatMap text = k.flatMap text → Recut l k)
    (h : l.flatMap text = text m ++ k.flatMap text) : Recut (x :: l) (glue x m :: k) := by
  cases k with
  | nil =>
    -- the text of no number at all is empty, and that of `m` is not
    rw [List.eq_nil_of_length_eq_zero (hl.trans hk.symm)] at h
    simp [text_ne_nil] at h
  | cons y rest =>
    have hrec : Recut l (glue m y :: rest) := ih _ hk (by simp [h, text_glue])
    exact .trans _ _ _ (hrec.cons x) (.symm _ _ (.rel _ _ (.here x m y rest)))

theorem recut_of_text_eq {n : Nat} {l k : List ℕ+} (hl : l.length = n) (hk : k.length = n)
    (h : l.flatMap text = k.flatMap text) : Recut l k := by
  induction n generalizing l k with
  | zero =>
    rw [List.eq_nil_of_length_eq_zero hl, List.eq_nil_of_length_eq_zero hk]
    exact .refl []
  | succ n ih =>
    obtain ⟨x, l, rfl⟩ := List.exists_cons_of_length_eq_add_one hl
    obtain ⟨y, k, rfl⟩ := List.exists_cons_of_length_eq_add_one hk
    rw [List.length_cons, Nat.add_right_cancel_iff] at hl hk
    rw [List.flatMap_cons, List.flatMap_cons] at h
    obtain ⟨rfl, hrest⟩ | ⟨m, rfl, hrest⟩ | ⟨m, rfl, hrest⟩ :=
      text_append_cases h (flatMap_begins l) (flatMap_begins k)
    · exact (ih hl hk hrest).cons x
    · exact recut_glue hl hk (fun k' hk' e => ih hl hk' e) hrest
    · exact .symm _ _ (recut_glue hk hl (fun l' hl' e => ih hk hl' e) hrest)

theorem flatMap_text_eq_iff {l k : List ℕ+} (hlength : l.length = k.length) :
    l.flatMap text = k.flatMap text ↔ Recut l k :=
  ⟨recut_of_text_eq hlength rfl, Recut.text_eq⟩

end RubbishStore.Lib.Decimal
