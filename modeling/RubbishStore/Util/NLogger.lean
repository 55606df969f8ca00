import Mathlib.Data.List.Basic
import RubbishStore.Lib.Outcome

/- `Util_Nlog_NLogger`: entries are buffered and handed to the fluent logger in
   batches, when the counter reaches the threshold, when a call forces it, and at
   shutdown. A post returns true or false, which `flush` does not look at, or it
   raises, which leaves `flush` before the buffer is cleared (`Except.error`, with
   the logger as it then is). The counter is null until the first entry.
   `Buffers` is the invariant between calls: what has been posted and what is
   buffered are the entries logged so far, and the counter counts the latter. -/
namespace RubbishStore.Util
open RubbishStore.Lib

/-- What becomes of a post. -/
inductive Posted where
  | returned (sent : Bool)
  | raised
  deriving DecidableEq, Repr

/-- A call of the fluent logger's `post`, and how it went. -/
structure Post (D : Type) where
  tag : String
  data : D
  outcome : Posted
  deriving DecidableEq, Repr

/-- The configuration `nlogger.php`, with `threhold` as `intval` gives it. -/
structure NLoggerConfig where
  tagPrefix : String := ""
  threhold : Int := 0
  disabled : Bool := false

structure NLogger (D : Type) where
  tagPrefix : String
  threhold : Int
  logTimes : Option Nat
  logs : List (String × D)
  disabled : Bool
  /-- What the fluent logger has been given. -/
  posts : List (Post D)
  deriving DecidableEq, Repr

/-- How the `i`-th post goes. -/
abbrev Posts : Type := Nat → Posted

namespace NLogger
variable {D : Type}

/-- A disabled logger is left without prefix and threshold. The texts '' and '0'
    count as no prefix. -/
def construct (config : NLoggerConfig) : NLogger D :=
  if config.disabled then
    { tagPrefix := "", threhold := 0, logTimes := none, logs := [], disabled := true, posts := [] }
  else
    { tagPrefix := if config.tagPrefix = "" ∨ config.tagPrefix = "0" then "" else config.tagPrefix
      threhold := if config.threhold = 0 then 10 else config.threhold
      logTimes := none
      logs := []
      disabled := false
      posts := [] }

/-- `$this->logger->post($tag, $data)` -/
def post (answers : Posts) (s : NLogger D) (tag : String) (data : D) :
    Except (NLogger D) (NLogger D) :=
  let outcome := answers s.posts.length
  let s := { s with posts := s.posts ++ [⟨tag, data, outcome⟩] }
  match outcome with
  | .returned _ => .ok s
  | .raised => .error s

/-- The loop of `flush`. -/
def postEach (answers : Posts) : NLogger D → List (String × D) → Except (NLogger D) (NLogger D)
  | s, [] => .ok s
  | s, log :: logs => do
    postEach answers (← s.post answers (s.tagPrefix ++ log.1) log.2) logs

def flush (answers : Posts) (s : NLogger D) : Except (NLogger D) (NLogger D) := do
  let s ← s.postEach answers s.logs
  return { s with logs := [], logTimes := some 0 }

/-- `log` returns TRUE wherever it returns. -/
def log (answers : Posts) (s : NLogger D) (tag : String) (data : D) (force : Bool := false) :
    Except (NLogger D) (NLogger D) :=
  if s.disabled then .ok s
  else
    let logTimes := s.logTimes.getD 0 + 1
    let s := { s with logs := s.logs ++ [(tag, data)], logTimes := some logTimes }
    if (logTimes : Int) ≥ s.threhold ∨ force then s.flush answers else .ok s

def shutdown (answers : Posts) (s : NLogger D) : Except (NLogger D) (NLogger D) :=
  if s.logTimes.getD 0 > 0 then s.flush answers else .ok s

/-- The arguments of a call of `log`. -/
structure Entry (D : Type) where
  tag : String
  data : D
  force : Bool := false
  deriving DecidableEq, Repr

/-- A sequence of calls of `log`. -/
def logAll (answers : Posts) : NLogger D → List (Entry D) → Except (NLogger D) (NLogger D)
  | s, [] => .ok s
  | s, e :: entries => do
    logAll answers (← s.log answers e.tag e.data e.force) entries

/-- What the posts have carried. -/
def posted (s : NLogger D) : List (String × D) := s.posts.map fun p => (p.tag, p.data)

/-- What the post of an entry carries. -/
def tagged (tagPrefix : String) (entries : List (Entry D)) : List (String × D) :=
  entries.map fun e => (tagPrefix ++ e.tag, e.data)

/-! Posts that do not raise. -/

/-- How posts go that only ever return. -/
def returning (answers : Nat → Bool) : Posts := fun i => .returned (answers i)

section
variable (answers : Nat → Bool) {s : NLogger D}

theorem post_returning (s : NLogger D) (tag : String) (data : D) :
    s.post (returning answers) tag data =
      .ok { s with posts := s.posts ++ [⟨tag, data, .returned (answers s.posts.length)⟩] } := rfl

/-- The loop posts every entry of the buffer, in order, and touches nothing else. -/
theorem postEach_holds (s : NLogger D) (logs : List (String × D)) :
    Holds
      (fun t => t.posted = s.posted ++ logs.map (fun log => (s.tagPrefix ++ log.1, log.2)) ∧
        t = { s with posts := t.posts })
      (fun _ => False) (s.postEach (returning answers) logs) := by
  induction logs generalizing s with
  | nil => simp [postEach]
  | cons log logs ih =>
    rw [postEach, post_returning]
    refine (ih _).mono ?_ fun _ h => h
    rintro t ⟨hposted, hrest⟩
    refine ⟨?_, hrest⟩
    simpa [posted] using hposted

/-- With the tag prefix `p` and the threshold `n`: the entries logged so far are
    those posted and then those in the buffer. -/
structure Buffers (p : String) (n : Int) (entries : List (Entry D)) (s : NLogger D) : Prop where
  enabled : s.disabled = false
  tagPrefix_eq : s.tagPrefix = p
  threhold_eq : s.threhold = n
  count : s.logTimes.getD 0 = s.logs.length
  content : s.posted ++ s.logs.map (fun log => (p ++ log.1, log.2)) = tagged p entries

variable {p : String} {n : Int} {entries : List (Entry D)}

theorem Buffers.flush (h : Buffers p n entries s) :
    Holds (fun t => Buffers p n entries t ∧ t.logs = []) (fun _ => False)
      (s.flush (returning answers)) := by
  refine Holds.bind (postEach_holds answers s s.logs) ?_
  rintro t ⟨hposted, hrest⟩
  rw [hrest]
  refine ⟨⟨h.enabled, h.tagPrefix_eq, h.threhold_eq, rfl, ?_⟩, rfl⟩
  have hcontent := h.content
  rw [← h.tagPrefix_eq] at hcontent ⊢
  rw [← hcontent, ← hposted]
  exact List.append_nil _

/-- A call of `log` buffers its entry, and flushes when that fills the buffer. -/
theorem Buffers.log (h : Buffers p n entries s) (hn : 1 ≤ n) (e : Entry D) :
    Holds (fun t => Buffers p n (entries ++ [e]) t ∧ (t.logs.length : Int) < n) (fun _ => False)
      (s.log (returning answers) e.tag e.data e.force) := by
  have hnew : Buffers p n (entries ++ [e])
      { s with logs := s.logs ++ [(e.tag, e.data)], logTimes := some (s.logTimes.getD 0 + 1) } := by
    refine ⟨h.enabled, h.tagPrefix_eq, h.threhold_eq, ?_, ?_⟩
    · simp [h.count]
    · simp only [posted, tagged, List.map_append, ← List.append_assoc]
      exact congrArg (· ++ _) h.content
  rw [NLogger.log, if_neg (by simp [h.enabled])]
  apply Holds.ite
  · intro _
    refine (hnew.flush answers).mono ?_ fun _ h => h
    rintro t ⟨ht, hempty⟩
    refine ⟨ht, ?_⟩
    simp only [hempty, List.length_nil]
    omega
  · intro hbelow
    have hcount := hnew.count
    have hthrehold := h.threhold_eq
    simp only [not_or, ge_iff_le, Int.not_le] at hbelow
    refine ⟨hnew, ?_⟩
    rw [← hcount, ← hthrehold]
    exact hbelow.1

theorem Buffers.logAll (h : Buffers p n entries s) (hn : 1 ≤ n) (hfits : (s.logs.length : Int) < n)
    (more : List (Entry D)) :
    Holds (fun t => Buffers p n (entries ++ more) t ∧ (t.logs.length : Int) < n) (fun _ => False)
      (s.logAll (returning answers) more) := by
  induction more generalizing s entries with
  | nil =>
    rw [List.append_nil]
    exact ⟨h, hfits⟩
  | cons e more ih =>
    rw [NLogger.logAll]
    refine Holds.bind (h.log answers hn e) ?_
    rintro t ⟨ht, hlt⟩
    simpa using ih ht hlt

theorem Buffers.shutdown (h : Buffers p n entries s) :
    Holds (fun t => t.posted = tagged p entries) (fun _ => False)
      (s.shutdown (returning answers)) := by
  have hdone : ∀ t : NLogger D, Buffers p n entries t → t.logs = [] →
      t.posted = tagged p entries := by
    intro t ht hempty
    have hcontent := ht.content
    rwa [hempty, List.map_nil, List.append_nil] at hcontent
  rw [NLogger.shutdown]
  apply Holds.ite
  · intro _
    exact (h.flush answers).mono (fun t ht => hdone t ht.1 ht.2) fun _ h => h
  · intro hzero
    apply hdone s h
    have hcount := h.count
    exact List.eq_nil_of_length_eq_zero (by omega)

end

/-- After any calls of `log` the counter counts the buffer, which is below the
    threshold; and once `shutdown` has run, what was posted is what was logged. -/
theorem logged_entries_posted (answers : Nat → Bool) (config : NLoggerConfig)
    (henabled : config.disabled = false) (entries : List (Entry D)) :
    let s : NLogger D := construct config
    1 ≤ s.threhold →
      (Holds
        (fun t => t.logTimes.getD 0 = t.logs.length ∧ (t.logs.length : Int) < s.threhold)
        (fun _ => False) (s.logAll (returning answers) entries)) ∧
      Holds (fun t => t.posted = tagged s.tagPrefix entries) (fun _ => False)
        (s.logAll (returning answers) entries >>= shutdown (returning answers)) := by
  intro s hn
  have hs : Buffers s.tagPrefix s.threhold [] s := by
    refine ⟨?_, rfl, rfl, ?_, ?_⟩ <;> simp [s, construct, henabled, posted, tagged]
  have hempty : s.logs = [] := by simp [s, construct, henabled]
  have hrun := hs.logAll answers hn (by simp only [hempty, List.length_nil]; omega) entries
  refine ⟨hrun.mono (fun t ht => ⟨ht.1.count, ht.2⟩) fun _ h => h, ?_⟩
  exact Holds.bind hrun fun t ht => ht.1.shutdown answers

theorem logged_entries_posted_three :
    let config : NLoggerConfig := { tagPrefix := "app.", threhold := 2 }
    let entries : List (Entry Nat) := [⟨"a", 1, false⟩, ⟨"b", 2, false⟩, ⟨"c", 3, false⟩]
    Holds (fun t => t.posted = tagged "app." entries) (fun _ => False)
      ((construct config).logAll (returning fun _ => true) entries >>=
        shutdown (returning fun _ => true)) :=
  (logged_entries_posted (fun _ => true) { tagPrefix := "app.", threhold := 2 } rfl
    [⟨"a", 1, false⟩, ⟨"b", 2, false⟩, ⟨"c", 3, false⟩] (by decide)).2

end NLogger

end RubbishStore.Util
