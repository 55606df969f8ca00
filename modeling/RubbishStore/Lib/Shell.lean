import RubbishStore.Lib.Text
import Mathlib.Data.List.Induction

/- What a bash script does with text that it does not quote, where blanks separate
   words (`IFS=" "`). The text is split at the blanks, and each word stands for the
   files it is a pattern for. Words without anything special in them come out as they
   went in (`unquoted_words`). Of the assignments that a loop makes to one variable the
   last one counts (`foldl_assign`). -/
namespace RubbishStore.Lib.Shell

/-- A line feed, the blank, and what a pattern is made with: `*`, `?`, `[` and a backslash. -/
def special : Octets := [10, 32, 42, 63, 91, 92]

/-- A word without anything special in it. -/
structure IsWord (w : Octets) : Prop where
  ne_nil : w ≠ []
  plain : ∀ b ∈ w, b ∉ special

/-- Pathname expansion, with the files that are there. -/
structure Pathnames where
  expand : Octets → List Octets
  expand_word : ∀ w, IsWord w → expand w = [w]

/-- Without files: a word stays as it is when it is a pattern for nothing. -/
def Pathnames.empty : Pathnames := ⟨fun w => [w], fun _ _ => rfl⟩

/-- Word splitting. -/
def splitWords (s : Octets) : List Octets := (s.splitOn 32).filter (· ≠ [])

/-- `$s`, when it is not quoted. -/
def unquoted (paths : Pathnames) (s : Octets) : List Octets := (splitWords s).flatMap paths.expand

/-- `-n`, `-e`, `-E`, or several of them in one. -/
def isEchoOption : Octets → Bool
  | 45 :: letters => letters ≠ [] && letters.all fun b => b = 110 || b = 101 || b = 69
  | _ => false

/-- `echo`, less the line feed at the end. -/
def echo (args : List Octets) : Octets := [32].intercalate (args.dropWhile isEchoOption)

theorem IsWord.blank_not_mem {w : Octets} (h : IsWord w) : 32 ∉ w :=
  fun hblank => h.plain 32 hblank (by decide)

theorem splitWords_join {ws : List Octets} (h : ∀ w ∈ ws, IsWord w) : splitWords ([32].intercalate ws) = ws := by
  by_cases hws : ws = []
  · subst hws
    rfl
  · rw [splitWords, List.splitOn_intercalate 32 (fun w hw => (h w hw).blank_not_mem) hws, List.filter_eq_self]
    exact fun w hw => decide_eq_true (h w hw).ne_nil

theorem unquoted_words (paths : Pathnames) {ws : List Octets} (h : ∀ w ∈ ws, IsWord w) :
    unquoted paths ([32].intercalate ws) = ws := by
  rw [unquoted, splitWords_join h]
  induction ws with
  | nil => rfl
  | cons w ws ih =>
    obtain ⟨hw, hws⟩ := List.forall_mem_cons.mp h
    rw [List.flatMap_cons, paths.expand_word w hw, ih hws]
    rfl

theorem unquoted_word (paths : Pathnames) {w : Octets} (h : IsWord w) : unquoted paths w = [w] := by
  have hone := unquoted_words paths (List.forall_mem_singleton.mpr h)
  rwa [List.intercalate_singleton] at hone

theorem isEchoOption_of_mem {w : Octets} (h : 61 ∈ w) : isEchoOption w = false := by
  rw [isEchoOption.eq_def]
  split
  · next letters =>
    have hletter : (61 : UInt8) ∈ letters := (List.mem_cons.mp h).resolve_left (by decide)
    rw [Bool.and_eq_false_iff]
    refine .inr (Bool.eq_false_iff.mpr fun hall => ?_)
    exact absurd (List.all_eq_true.mp hall 61 hletter) (by decide)
  · rfl

theorem echo_word {w : Octets} (h : isEchoOption w = false) : echo [w] = w := by
  rw [echo, List.dropWhile_cons_of_neg (by rw [h]; exact Bool.false_ne_true), List.intercalate_singleton]

/-- A variable that some rounds of a loop assign to. -/
theorem foldl_assign {α β : Type} (p : α → Bool) (f : α → β) (l : List α) (b : β) :
    l.foldl (fun old a => if p a then f a else old) b = ((l.filter p).getLast?.map f).getD b := by
  induction l using List.reverseRecOn with
  | nil => rfl
  | append_singleton l a ih =>
    rw [List.foldl_concat, ih, List.filter_append]
    cases ha : p a with
    | true => rw [List.filter_cons_of_pos ha, List.filter_nil, List.getLast?_concat, if_pos rfl]; rfl
    | false =>
      rw [List.filter_cons_of_neg (Bool.not_eq_true _ ▸ ha), List.filter_nil, List.append_nil]
      exact if_neg Bool.false_ne_true

end RubbishStore.Lib.Shell
