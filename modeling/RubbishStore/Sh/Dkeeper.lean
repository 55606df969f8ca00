import Mathlib.Data.List.Infix
import RubbishStore.Lib.Labelled
import RubbishStore.Lib.Text

/- `dkeeper`: the script that keeps the jobs of a list running. For each line `start` looks
   whether `pgrep -f` finds the line among the command lines of all processes, and runs
   it if not; between the two, and between the start of a child and the moment it runs
   its command, anything else can happen. `stop` kills what is found, `restart` kills and
   starts. What `pgrep` takes a line for is a parameter, and so is the command line that
   a job's process shows. Keepers that run side by side start a job at most once each
   while `pgrep` finds it (`children_le`), look after every job (`round_covers`), and pile up
   the ones that it does not find (`again_and_again`). -/
namespace RubbishStore.Sh
open RubbishStore.Lib

/-- What the script finds itself in. -/
structure Machine where
  /-- `pgrep -f "$CLI"` finds a command line. -/
  pgrep : Text → Text → Bool
  /-- the command line of the script, which `pgrep` sees as well -/
  own : Text
  /-- the command line that a command shows when it runs -/
  shown : Text → Text

inductive Proc where
  /-- not started by the script -/
  | foreign (cmdline : Text)
  /-- started for a job; until it runs the command it is a copy of the script -/
  | child (job : Text) (running : Bool)
  deriving DecidableEq, Repr

def Proc.cmdline (m : Machine) : Proc → Text
  | .foreign cmdline => cmdline
  | .child job true => m.shown job
  | .child _ false => m.own

/-- `-n "$PID"`: something is found. -/
def found (m : Machine) (procs : List Proc) (job : Text) : Bool :=
  m.pgrep job m.own || procs.any fun p => m.pgrep job (p.cmdline m)

def isBlank (c : Char) : Bool := c = ' ' ∨ c = '\t'

/-- The words of a line, as `$1 $job` splits them. -/
def words (line : Text) : List Text := (line.splitOnP isBlank).filter (· ≠ [])

/-- The commands that `cat $2 | while read job` runs: `local CLI=$@` puts one blank between the words,
    and what stands behind the last line feed is not read. -/
def jobsOf (file : Text) : List Text :=
  (file.splitOn '\n').dropLast.map fun line => [' '].intercalate (words line)

/-- A line that is ended is a job, the empty command if there is nothing on it. -/
theorem jobsOf_lines {lines : List Text} {tail : Text} (hlines : ∀ line ∈ lines, '\n' ∉ line) (htail : '\n' ∉ tail) :
    jobsOf (['\n'].intercalate (lines ++ [tail])) = lines.map fun line => [' '].intercalate (words line) := by
  have hall : ∀ line ∈ lines ++ [tail], '\n' ∉ line := by
    intro line hline
    rcases List.mem_append.mp hline with hline | hline
    · exact hlines line hline
    · exact List.mem_singleton.mp hline ▸ htail
  rw [jobsOf, List.splitOn_intercalate _ hall (by simp), List.dropLast_concat]

/-! Several scripts that start jobs, and the rest of the machine. -/

/-- The lines that are left of a round, and the job that was not found. -/
structure Keeper where
  todo : List Text
  due : Option Text := none
  deriving DecidableEq, Repr

structure World where
  procs : List Proc
  keepers : List Keeper
  deriving DecidableEq, Repr

inductive Event where
  /-- a keeper runs `pgrep` for its next job -/
  | look (k : Nat)
  /-- it runs the job that was not found -/
  | start (k : Nat)
  /-- `while true`: its next round -/
  | again (k : Nat)
  /-- a child runs its command -/
  | exec (i : Nat)
  /-- a process ends, or is killed -/
  | ends (i : Nat)
  | appears (cmdline : Text)
  deriving DecidableEq, Repr

def step (m : Machine) (jobs : List Text) (w : World) : Event → Option World
  | .look k =>
    match w.keepers[k]? with
    | some ⟨job :: todo, none⟩ =>
      some { w with keepers := w.keepers.set k ⟨todo, if found m w.procs job then none else some job⟩ }
    | _ => none
  | .start k =>
    match w.keepers[k]? with
    | some ⟨todo, some job⟩ => some ⟨w.procs ++ [.child job false], w.keepers.set k ⟨todo, none⟩⟩
    | _ => none
  | .again k =>
    match w.keepers[k]? with
    | some ⟨[], none⟩ => some { w with keepers := w.keepers.set k ⟨jobs, none⟩ }
    | _ => none
  | .exec i =>
    match w.procs[i]? with
    | some (.child job false) => some { w with procs := w.procs.set i (.child job true) }
    | _ => none
  | .ends i => if i < w.procs.length then some { w with procs := w.procs.eraseIdx i } else none
  | .appears cmdline => some { w with procs := w.procs ++ [.foreign cmdline] }

/-- The keepers begin their first round beside the processes that are there. -/
def World.start (jobs : List Text) (cmdlines : List Text) (n : Nat) : World where
  procs := cmdlines.map .foreign
  keepers := List.replicate n ⟨jobs, none⟩

/-- The same, where nobody looks for `job` while a child that was started for it does not run its
    command yet: the time that `sleep` leaves it. -/
def waiting (m : Machine) (jobs : List Text) (job : Text) (w : World) (e : Event) : Option World :=
  match e with
  | .look k =>
    if w.keepers[k]?.any (fun keeper => keeper.todo.head? = some job) ∧ .child job false ∈ w.procs then none
    else step m jobs w e
  | _ => step m jobs w e

/-! What a step does, case by case. -/

inductive Steps (m : Machine) (jobs : List Text) (w : World) : Event → World → Prop where
  | look {k : Nat} {job : Text} {todo : List Text} (hk : w.keepers[k]? = some ⟨job :: todo, none⟩) :
    Steps m jobs w (.look k)
      { w with keepers := w.keepers.set k ⟨todo, if found m w.procs job then none else some job⟩ }
  | start {k : Nat} {job : Text} {todo : List Text} (hk : w.keepers[k]? = some ⟨todo, some job⟩) :
    Steps m jobs w (.start k) ⟨w.procs ++ [.child job false], w.keepers.set k ⟨todo, none⟩⟩
  | again {k : Nat} (hk : w.keepers[k]? = some ⟨[], none⟩) :
    Steps m jobs w (.again k) { w with keepers := w.keepers.set k ⟨jobs, none⟩ }
  | exec {i : Nat} {job : Text} (hi : w.procs[i]? = some (.child job false)) :
    Steps m jobs w (.exec i) { w with procs := w.procs.set i (.child job true) }
  | ends {i : Nat} : Steps m jobs w (.ends i) { w with procs := w.procs.eraseIdx i }
  | appears (cmdline : Text) : Steps m jobs w (.appears cmdline) { w with procs := w.procs ++ [.foreign cmdline] }

section
variable {m : Machine} {jobs : List Text} {w w' : World} {e : Event} {job : Text}

theorem steps_of_step (h : step m jobs w e = some w') : Steps m jobs w e w' := by
  cases e with
  | look k =>
    rw [step] at h
    split at h
    · next hk => exact Option.some.inj h ▸ .look hk
    · cases h
  | start k =>
    rw [step] at h
    split at h
    · next hk => exact Option.some.inj h ▸ .start hk
    · cases h
  | again k =>
    rw [step] at h
    split at h
    · next hk => exact Option.some.inj h ▸ .again hk
    · cases h
  | exec i =>
    rw [step] at h
    split at h
    · next hi => exact Option.some.inj h ▸ .exec hi
    · cases h
  | ends i =>
    rw [step] at h
    split at h
    · exact Option.some.inj h ▸ .ends
    · cases h
  | appears cmdline => exact Option.some.inj h ▸ .appears cmdline

theorem waiting_step (h : waiting m jobs job w e = some w') :
    step m jobs w e = some w' ∧
      ∀ k todo, e = .look k → w.keepers[k]? = some ⟨job :: todo, none⟩ → .child job false ∉ w.procs := by
  cases e with
  | look k =>
    rw [waiting] at h
    split at h
    · cases h
    · next hwait =>
      refine ⟨h, fun k' todo heq hk hmem => hwait ⟨?_, hmem⟩⟩
      cases heq
      rw [hk]
      simp
  | _ => exact ⟨h, fun _ _ heq => by cases heq⟩

end

/-! How many children a job has. -/

def Proc.isFor (job : Text) : Proc → Bool
  | .child j _ => j = job
  | .foreign _ => false

def children (job : Text) (w : World) : Nat := w.procs.countP (·.isFor job)

def dues (job : Text) (w : World) : Nat := w.keepers.countP fun keeper => keeper.due = some job

/-- With `n` keepers, those that are about to start the job count as children. -/
structure Bounded (job : Text) (n : Nat) (w : World) : Prop where
  keepers : w.keepers.length = n
  le : children job w + dues job w ≤ n

section
variable {m : Machine} {jobs : List Text} {w w' : World} {e : Event} {job : Text} {n : Nat}

theorem no_children (hfind : m.pgrep job (m.shown job) = true) (hrun : .child job false ∉ w.procs)
    (hnone : found m w.procs job = false) : children job w = 0 := by
  rw [children, List.countP_eq_zero]
  intro p hp hfor
  rw [found, Bool.or_eq_false_iff, List.any_eq_false] at hnone
  have hmiss := hnone.2 p hp
  cases p with
  | foreign cmdline => cases hfor
  | child j running =>
    have hj : j = job := of_decide_eq_true hfor
    subst hj
    cases running with
    | false => exact hrun hp
    | true => exact hmiss hfind

/-- One keeper's place among the others. -/
theorem countP_replaced {α : Type} {p : α → Bool} {l : List α} {i : Nat} {a b : α} (h : l[i]? = some b) :
    (l.set i a).countP p + (if p b then 1 else 0) = l.countP p + if p a then 1 else 0 := by
  obtain ⟨hi, hb⟩ := List.getElem?_eq_some_iff.mp h
  have hle : (if p l[i] then 1 else 0) ≤ l.countP p := List.boole_getElem_le_countP hi
  rw [List.countP_set hi, hb] at *
  omega

theorem dues_set {k : Nat} {old : Keeper} (job : Text) (keeper : Keeper) (procs : List Proc) (hk : w.keepers[k]? = some old) :
    dues job ⟨procs, w.keepers.set k keeper⟩ + (if old.due = some job then 1 else 0) =
      dues job w + if keeper.due = some job then 1 else 0 := by
  have hcount := countP_replaced (p := fun keeper : Keeper => keeper.due = some job) (a := keeper) hk
  simpa [dues] using hcount

theorem dues_keep {k : Nat} {old : Keeper} (keeper : Keeper) (procs : List Proc) (hk : w.keepers[k]? = some old)
    (hold : old.due ≠ some job) (hnew : keeper.due ≠ some job) :
    dues job ⟨procs, w.keepers.set k keeper⟩ = dues job w := by
  have hcount := dues_set job keeper procs hk
  rwa [if_neg hold, if_neg hnew] at hcount

theorem children_append (job : Text) (w : World) (p : Proc) (keepers : List Keeper) :
    children job ⟨w.procs ++ [p], keepers⟩ = children job w + if p.isFor job then 1 else 0 := by
  rw [children, List.countP_append, List.countP_singleton]
  rfl

theorem step_bounded (hfind : m.pgrep job (m.shown job) = true) (hb : Bounded job n w)
    (h : waiting m jobs job w e = some w') : Bounded job n w' := by
  obtain ⟨hstep, hwait⟩ := waiting_step h
  have hle := hb.le
  cases steps_of_step hstep with
  | @look k j todo hk =>
    refine ⟨List.length_set.trans hb.keepers, ?_⟩
    by_cases hj : j = job ∧ found m w.procs j = false
    · -- the others may be about to start it as well, but there is no child
      obtain ⟨rfl, hnone⟩ := hj
      have hzero : children j w = 0 := no_children hfind (hwait k todo rfl hk) hnone
      have hdues := List.countP_le_length (p := fun keeper : Keeper => keeper.due = some j)
        (l := w.keepers.set k ⟨todo, if found m w.procs j then none else some j⟩)
      rw [List.length_set, hb.keepers] at hdues
      exact Nat.le_trans (Nat.add_le_add (Nat.le_of_eq hzero) hdues) (Nat.le_of_eq (Nat.zero_add n))
    · have hdue : (if found m w.procs j then none else some j) ≠ some job := by
        split
        · simp
        · next hnone => exact fun h => hj ⟨Option.some.inj h, by simpa using hnone⟩
      have hcount := dues_keep ⟨todo, if found m w.procs j then none else some j⟩ w.procs hk
        (Option.some_ne_none job).symm hdue
      exact Nat.le_trans (Nat.le_of_eq (congrArg (children job w + ·) hcount)) hle
  | @start k j todo hk =>
    refine ⟨List.length_set.trans hb.keepers, ?_⟩
    have hcount := dues_set job ⟨todo, none⟩ (w.procs ++ [.child j false]) hk
    have hchildren := children_append job w (.child j false) (w.keepers.set k ⟨todo, none⟩)
    have hsame : (Proc.child j false).isFor job = decide (some j = some job) := by simp [Proc.isFor]
    rw [hsame] at hchildren
    rw [hchildren]
    by_cases hj : some j = some job
    · rw [if_pos hj, if_neg (by simp)] at hcount
      rw [decide_eq_true hj, if_pos rfl]
      omega
    · rw [if_neg hj, if_neg (by simp)] at hcount
      rw [decide_eq_false hj, if_neg Bool.false_ne_true]
      omega
  | @again k hk =>
    refine ⟨List.length_set.trans hb.keepers, ?_⟩
    have hnone : (none : Option Text) ≠ some job := (Option.some_ne_none job).symm
    have hcount := dues_keep ⟨jobs, none⟩ w.procs hk hnone hnone
    exact Nat.le_trans (Nat.le_of_eq (congrArg (children job w + ·) hcount)) hle
  | @exec i j hi =>
    refine ⟨hb.keepers, ?_⟩
    have hcount := countP_replaced (p := Proc.isFor job) (a := .child j true) hi
    have hsame : (Proc.child j true).isFor job = (Proc.child j false).isFor job := rfl
    rw [hsame] at hcount
    exact Nat.le_trans (Nat.le_of_eq (congrArg (· + dues job w) (Nat.add_right_cancel hcount))) hle
  | @ends i =>
    refine ⟨hb.keepers, ?_⟩
    have hfew := List.Sublist.countP_le (p := Proc.isFor job) (List.eraseIdx_sublist w.procs i)
    exact Nat.le_trans (Nat.add_le_add_right hfew _) hle
  | appears cmdline =>
    refine ⟨hb.keepers, ?_⟩
    exact Nat.le_trans (Nat.le_of_eq (congrArg (· + dues job w) (children_append job w (.foreign cmdline) w.keepers))) hle

/-- However the scripts, their children and the rest of the machine take turns, `n` keepers never have
    more than `n` children for a job that `pgrep` finds by its own command line, if each child runs its
    command before the next look for its job. -/
theorem children_le (m : Machine) {job : Text} (hfind : m.pgrep job (m.shown job) = true) {jobs cmdlines : List Text}
    {n : Nat} {es : List Event} {w : World}
    (h : Labelled.play (waiting m jobs job) (.start jobs cmdlines n) es = some w) : children job w ≤ n := by
  have hstart : Bounded job n (.start jobs cmdlines n) := by
    refine ⟨List.length_replicate, ?_⟩
    have hnone : children job (.start jobs cmdlines n) = 0 := by
      rw [children, List.countP_eq_zero]
      intro p hp hfor
      obtain ⟨cmdline, -, rfl⟩ := List.mem_map.mp hp
      cases hfor
    rw [hnone, Nat.zero_add, dues, World.start, List.countP_replicate]
    simp
  have hend := Labelled.play_inv (P := fun _ => True) (I := Bounded job n)
    (fun w e w' _ hb hstep => step_bounded hfind hb hstep) (fun _ _ => trivial) hstart h
  exact Nat.le_trans (Nat.le_add_right _ _) hend.le

end

/-- `pgrep` with a text that has nothing special in it. -/
def plainMachine (own : Text) : Machine where
  pgrep job cmdline := decide (job <:+: cmdline)
  own := own
  shown job := job

/-- Two keepers that look before either of them starts. -/
theorem children_le_two :
    ∃ w, Labelled.play (waiting (plainMachine ['d']) [['j']] ['j']) (.start [['j']] [] 2)
        [.look 0, .look 1, .start 0, .start 1] = some w ∧ children ['j'] w = 2 ∧ children ['j'] w ≤ 2 := by
  obtain ⟨w, hplay⟩ : ∃ w, Labelled.play (waiting (plainMachine ['d']) [['j']] ['j']) (.start [['j']] [] 2)
      [.look 0, .look 1, .start 0, .start 1] = some w := Option.isSome_iff_exists.mp (by decide)
  refine ⟨w, hplay, ?_, children_le (plainMachine ['d']) (by decide) hplay⟩
  have hcount : (Labelled.play (waiting (plainMachine ['d']) [['j']] ['j']) (.start [['j']] [] 2)
      [.look 0, .look 1, .start 0, .start 1]).map (children ['j']) = some 2 := by decide
  rw [hplay] at hcount
  exact Option.some.inj hcount

/-! A round looks after every job. -/

/-- Something runs that was started for the job or that `pgrep` takes for it, apart from copies of the
    script. -/
def Covered (m : Machine) (job : Text) (procs : List Proc) : Prop :=
  ∃ p ∈ procs, p.isFor job = true ∨ ((∀ j, p ≠ .child j false) ∧ m.pgrep job (p.cmdline m) = true)

section
variable {m : Machine} {jobs : List Text} {w w' : World} {e : Event} {job : Text}

theorem covered_of_found {procs : List Proc} (hown : m.pgrep job m.own = false) (h : found m procs job = true) :
    Covered m job procs := by
  rw [found, hown, Bool.false_or, List.any_eq_true] at h
  obtain ⟨p, hp, hfind⟩ := h
  refine ⟨p, hp, .inr ⟨?_, hfind⟩⟩
  rintro j rfl
  rw [Proc.cmdline, hown] at hfind
  cases hfind

theorem mem_set_of_ne {α : Type} {l : List α} {i : Nat} {a b x : α} (hi : l[i]? = some b) (hx : x ∈ l) (hne : x ≠ b) :
    x ∈ l.set i a := by
  obtain ⟨n, hn⟩ := List.mem_iff_getElem?.mp hx
  have hin : i ≠ n := by
    rintro rfl
    exact hne (Option.some.inj (hn.symm.trans hi))
  exact List.mem_iff_getElem?.mpr ⟨n, (List.getElem?_set_ne hin).trans hn⟩

/-- As long as nothing ends. -/
theorem covered_step (hc : Covered m job w.procs) (he : ∀ i, e ≠ .ends i) (h : step m jobs w e = some w') :
    Covered m job w'.procs := by
  obtain ⟨p, hp, hcovers⟩ := hc
  cases steps_of_step h with
  | look _ | again _ => exact ⟨p, hp, hcovers⟩
  | start _ | appears _ => exact ⟨p, List.mem_append_left _ hp, hcovers⟩
  | @exec i j hi =>
    by_cases hpj : p = .child j false
    · -- the copy of the script goes on as the job's command
      subst hpj
      refine ⟨.child j true, List.mem_iff_getElem?.mpr ⟨i, List.getElem?_set_self ?_⟩, .inl ?_⟩
      · exact (List.getElem?_eq_some_iff.mp hi).1
      · exact hcovers.resolve_right fun hother => hother.1 j rfl
    · exact ⟨p, mem_set_of_ne hi hp hpj, hcovers⟩
  | @ends i => exact absurd rfl (he i)

theorem covered_play {es : List Event} (hc : Covered m job w.procs) (hes : ∀ e ∈ es, ∀ i, e ≠ .ends i)
    (h : Labelled.play (step m jobs) w es = some w') : Covered m job w'.procs :=
  Labelled.play_inv (P := fun e => ∀ i, e ≠ .ends i) (I := fun w => Covered m job w.procs)
    (fun _ _ _ he hc hstep => covered_step hc he hstep) hes hc h

/-- There is a moment when the job is covered, and if nothing ends behind it the job stays so. -/
def Looked (m : Machine) (jobs : List Text) (w w' : World) (es : List Event) (job : Text) : Prop :=
  ∃ es₁ es₂ w₁, es = es₁ ++ es₂ ∧ Labelled.play (step m jobs) w es₁ = some w₁ ∧ Covered m job w₁.procs ∧
    ((∀ e ∈ es₂, ∀ i, e ≠ .ends i) → Covered m job w'.procs)

theorem looked_now {es : List Event} (hc : Covered m job w.procs) (h : Labelled.play (step m jobs) w es = some w') :
    Looked m jobs w w' es job := ⟨[], es, w, rfl, rfl, hc, fun hes => covered_play hc hes h⟩

theorem looked_later {es : List Event} {v : World} (hstep : step m jobs w e = some v) (h : Looked m jobs v w' es job) :
    Looked m jobs w w' (e :: es) job := by
  obtain ⟨es₁, es₂, w₁, rfl, hplay, hc⟩ := h
  refine ⟨e :: es₁, es₂, w₁, rfl, ?_, hc⟩
  rw [Labelled.play, hstep]
  exact hplay

/-- Only its own events move a keeper. -/
theorem keeper_step {k : Nat} (hk : e ≠ .look k ∧ e ≠ .start k ∧ e ≠ .again k) (h : step m jobs w e = some w') :
    w'.keepers[k]? = w.keepers[k]? := by
  cases steps_of_step h with
  | @look k' j todo hk' => exact List.getElem?_set_ne fun heq => hk.1 (by rw [heq])
  | @start k' j todo hk' => exact List.getElem?_set_ne fun heq => hk.2.1 (by rw [heq])
  | @again k' hk' => exact List.getElem?_set_ne fun heq => hk.2.2 (by rw [heq])
  | exec _ | ends | appears _ => rfl

theorem rest_looked {k : Nat} {todo : List Text} {due : Option Text} {es : List Event}
    (hown : ∀ job ∈ jobs, m.pgrep job m.own = false) (hjobs : ∀ job ∈ due.toList ++ todo, job ∈ jobs)
    (hes : .again k ∉ es) (hk : w.keepers[k]? = some ⟨todo, due⟩) (h : Labelled.play (step m jobs) w es = some w')
    (hend : w'.keepers[k]? = some ⟨[], none⟩) : ∀ job ∈ due.toList ++ todo, Looked m jobs w w' es job := by
  induction es generalizing w todo due with
  | nil =>
    have hsame : w = w' := Option.some.inj h
    rw [← hsame, hk] at hend
    cases hend
    exact fun _ hj => absurd hj List.not_mem_nil
  | cons e es ih =>
    obtain ⟨v, hstep, hrest⟩ := Labelled.play_cons h
    obtain ⟨hagain, hes⟩ := not_or.mp (mt List.mem_cons.mpr hes)
    by_cases hmine : e ≠ .look k ∧ e ≠ .start k
    · -- somebody else's event
      have hv := (keeper_step ⟨hmine.1, hmine.2, Ne.symm hagain⟩ hstep).trans hk
      exact fun job hj => looked_later hstep (ih hjobs hes hv hrest job hj)
    · have hlt : k < w.keepers.length := (List.getElem?_eq_some_iff.mp hk).1
      have hsteps := steps_of_step hstep
      rcases not_and_or.mp hmine with hlook | hstart
      · rw [not_not.mp hlook] at hsteps
        cases hsteps with
        | @look _ j rest hk' =>
          obtain ⟨rfl, rfl⟩ : todo = j :: rest ∧ due = none := by simpa using hk.symm.trans hk'
          have hv := List.getElem?_set_self (a := ⟨rest, if found m w.procs j then none else some j⟩) hlt
          cases hfound : found m w.procs j with
          | true =>
            have hrests := hv.trans (congrArg (fun due => some (Keeper.mk rest due)) (if_pos hfound))
            have htail := ih (fun job hj => hjobs job (List.mem_cons_of_mem j hj)) hes hrests hrest
            intro job hj
            rcases List.mem_cons.mp hj with rfl | hj
            · exact looked_now (covered_of_found (hown _ (hjobs _ List.mem_cons_self)) hfound) h
            · exact looked_later hstep (htail job hj)
          | false =>
            have hdue := hv.trans (congrArg (fun due => some (Keeper.mk rest due)) (if_neg (by rw [hfound]; exact Bool.false_ne_true)))
            have htail : ∀ job ∈ (some j).toList ++ rest, Looked m jobs _ w' es job := ih hjobs hes hdue hrest
            exact fun job hj => looked_later hstep (htail job hj)
      · rw [not_not.mp hstart] at hsteps
        cases hsteps with
        | @start _ j rest hk' =>
          obtain ⟨rfl, rfl⟩ : todo = rest ∧ due = some j := by simpa using hk.symm.trans hk'
          have hv := List.getElem?_set_self (a := (⟨todo, none⟩ : Keeper)) hlt
          have htail := ih (fun job hj => hjobs job (List.mem_cons_of_mem j hj)) hes hv hrest
          intro job hj
          rcases List.mem_cons.mp hj with rfl | hj
          · refine looked_later hstep (looked_now ⟨.child job false, ?_, .inl ?_⟩ hrest)
            · exact List.mem_append_right _ List.mem_cons_self
            · exact decide_eq_true rfl
          · exact looked_later hstep (htail job hj)

end

/-- Every process is the command of a job on the list. -/
def AllRunning (jobs : List Text) (procs : List Proc) : Prop := ∀ p ∈ procs, ∃ job ∈ jobs, p = .child job true

section
variable {m : Machine} {jobs : List Text} {job : Text}

theorem not_mem_of_running {procs : List Proc} (h : AllRunning jobs procs) (j : Text) : .child j false ∉ procs := by
  intro hp
  obtain ⟨_, -, heq⟩ := h _ hp
  cases heq

theorem found_running {procs : List Proc} (h : AllRunning jobs procs) (hown : m.pgrep job m.own = false)
    (hmiss : ∀ j ∈ jobs, m.pgrep job (m.shown j) = false) : found m procs job = false := by
  rw [found, hown, Bool.false_or, List.any_eq_false]
  intro p hp
  obtain ⟨j, hj, rfl⟩ := h p hp
  rw [Proc.cmdline, hmiss j hj]
  exact Bool.false_ne_true

/-- The keeper's look at its next line. -/
theorem look_plays (m : Machine) (job j : Text) (todo : List Text) {procs : List Proc} (h : AllRunning jobs procs) :
    waiting m jobs job ⟨procs, [⟨j :: todo, none⟩]⟩ (.look 0) =
      some ⟨procs, [⟨todo, if found m procs j then none else some j⟩]⟩ := by
  rw [waiting, if_neg fun hwait => not_mem_of_running h job hwait.2]
  rfl

/-- One line of a keeper that is alone: its look, and where nothing is found the start, and the child's
    command. -/
theorem line_plays {procs : List Proc} {j : Text} (todo : List Text) (h : AllRunning jobs procs) (hj : j ∈ jobs)
    (hown : m.pgrep job m.own = false) (hmiss : ∀ j ∈ jobs, m.pgrep job (m.shown j) = false) :
    ∃ es procs', (∀ e ∈ es, ∀ i, e ≠ .ends i) ∧ AllRunning jobs procs' ∧
      procs.countP (Proc.isFor job) + (if j = job then 1 else 0) ≤ procs'.countP (Proc.isFor job) ∧
      Labelled.play (waiting m jobs job) ⟨procs, [⟨j :: todo, none⟩]⟩ es = some ⟨procs', [⟨todo, none⟩]⟩ := by
  have hlook := look_plays m job j todo h
  cases hfound : found m procs j with
  | true =>
    have hne : j ≠ job := by
      rintro rfl
      rw [found_running h hown hmiss] at hfound
      cases hfound
    refine ⟨[.look 0], procs, by simp, h, by rw [if_neg hne, Nat.add_zero], ?_⟩
    rw [Labelled.play, hlook, hfound]
    rfl
  | false =>
    refine ⟨[.look 0, .start 0, .exec procs.length], procs ++ [.child j true], by simp, ?_, ?_, ?_⟩
    · intro p hp
      rcases List.mem_append.mp hp with hp | hp
      · exact h p hp
      · exact ⟨j, hj, List.mem_singleton.mp hp⟩
    · rw [List.countP_append, List.countP_singleton, Proc.isFor]
      simp
    · have hexec : waiting m jobs job ⟨procs ++ [.child j false], [⟨todo, none⟩]⟩ (.exec procs.length) =
          some ⟨procs ++ [.child j true], [⟨todo, none⟩]⟩ := by
        simp [waiting, step]
      rw [Labelled.play, hlook, hfound]
      show (waiting m jobs job ⟨procs ++ [.child j false], [⟨todo, none⟩]⟩ (.exec procs.length)).bind _ = _
      rw [hexec]
      rfl

/-- The lines that are left of a round. -/
theorem round_plays {procs : List Proc} {todo : List Text} (h : AllRunning jobs procs) (htodo : ∀ j ∈ todo, j ∈ jobs)
    (hown : m.pgrep job m.own = false) (hmiss : ∀ j ∈ jobs, m.pgrep job (m.shown j) = false) :
    ∃ es procs', (∀ e ∈ es, ∀ i, e ≠ .ends i) ∧ AllRunning jobs procs' ∧
      procs.countP (Proc.isFor job) + (if job ∈ todo then 1 else 0) ≤ procs'.countP (Proc.isFor job) ∧
      Labelled.play (waiting m jobs job) ⟨procs, [⟨todo, none⟩]⟩ es = some ⟨procs', [⟨[], none⟩]⟩ := by
  induction todo generalizing procs with
  | nil => exact ⟨[], procs, by simp, h, by simp, rfl⟩
  | cons j todo ih =>
    obtain ⟨hj, htodo⟩ := List.forall_mem_cons.mp htodo
    obtain ⟨es, procs₁, hes, h₁, hcount₁, hplay₁⟩ := line_plays todo h hj hown hmiss
    obtain ⟨fs, procs₂, hfs, h₂, hcount₂, hplay₂⟩ := ih h₁ htodo
    refine ⟨es ++ fs, procs₂, fun e he => (List.mem_append.mp he).elim (hes e) (hfs e), h₂, ?_,
      Labelled.play_append hplay₁ hplay₂⟩
    by_cases hjob : j = job
    · rw [if_pos (List.mem_cons.mpr (.inl hjob.symm))]
      rw [if_pos hjob] at hcount₁
      omega
    · rw [if_neg hjob] at hcount₁
      have hmem : job ∈ j :: todo ↔ job ∈ todo := by simp [Ne.symm hjob]
      rw [if_congr hmem rfl rfl]
      omega

/-- Where `pgrep` finds a job of the list neither in the script's own command line nor in what the jobs
    of the list show, one keeper alone, with time enough for each child, starts it again in every round. -/
theorem again_and_again (m : Machine) {jobs : List Text} {job : Text} (hjob : job ∈ jobs)
    (hown : m.pgrep job m.own = false) (hmiss : ∀ j ∈ jobs, m.pgrep job (m.shown j) = false) (b : Nat) :
    ∃ es w, (∀ e ∈ es, ∀ i, e ≠ .ends i) ∧
      Labelled.play (waiting m jobs job) (.start jobs [] 1) es = some w ∧ b ≤ children job w := by
  have hrounds : ∃ es procs, (∀ e ∈ es, ∀ i, e ≠ .ends i) ∧ AllRunning jobs procs ∧ b ≤ procs.countP (Proc.isFor job) ∧
      Labelled.play (waiting m jobs job) (.start jobs [] 1) es = some ⟨procs, [⟨jobs, none⟩]⟩ := by
    induction b with
    | zero => exact ⟨[], [], by simp, fun p hp => absurd hp List.not_mem_nil, Nat.zero_le _, rfl⟩
    | succ b ih =>
      obtain ⟨es, procs, hes, h, hb, hplay⟩ := ih
      obtain ⟨fs, procs', hfs, h', hcount, hround⟩ := round_plays h (fun _ hj => hj) hown hmiss
      rw [if_pos hjob] at hcount
      have hagain : Labelled.play (waiting m jobs job) ⟨procs', [⟨[], none⟩]⟩ [.again 0] =
          some ⟨procs', [⟨jobs, none⟩]⟩ := rfl
      refine ⟨es ++ (fs ++ [.again 0]), procs', ?_, h', by omega, Labelled.play_append hplay (Labelled.play_append hround hagain)⟩
      intro e he
      rcases List.mem_append.mp he with he | he
      · exact hes e he
      · rcases List.mem_append.mp he with he | he
        · exact hfs e he
        · rw [List.mem_singleton.mp he]
          simp
  obtain ⟨es, procs, hes, -, hb, hplay⟩ := hrounds
  exact ⟨es, _, hes, hplay, hb⟩

end

/-- A job with a `+`, which stands for something else in a pattern. -/
theorem again_and_again_plus :
    let m : Machine := ⟨fun job cmdline => decide ('+' ∉ job ∧ job <:+: cmdline), ['d'], id⟩
    ∃ es w, (∀ e ∈ es, ∀ i, e ≠ .ends i) ∧
      Labelled.play (waiting m [['a', '+', 'b']] ['a', '+', 'b']) (.start [['a', '+', 'b']] [] 1) es = some w ∧
        7 ≤ children ['a', '+', 'b'] w :=
  again_and_again ⟨fun job cmdline => decide ('+' ∉ job ∧ job <:+: cmdline), ['d'], id⟩ (by decide) (by decide)
    (by decide) 7

/-! One script that stops or restarts its jobs, with nothing in between. -/

/-- `start`; the child runs its command before the next line. -/
def start (m : Machine) (job : Text) (procs : List Proc) : Option (List Proc) :=
  some (if found m procs job then procs else procs ++ [.child job true])

/-- `stop`: what is found is killed, and gone before the next look. Where the script finds itself it does
    not come back. -/
def stop (m : Machine) (job : Text) (procs : List Proc) : Option (List Proc) :=
  if m.pgrep job m.own then none else some (procs.filter fun p => !m.pgrep job (p.cmdline m))

def restart (m : Machine) (job : Text) (procs : List Proc) : Option (List Proc) :=
  (stop m job procs).bind (start m job)

/-- `run` -/
def runJobs (action : Text → List Proc → Option (List Proc)) : List Text → List Proc → Option (List Proc)
  | [], procs => some procs
  | job :: jobs, procs => (action job procs).bind (runJobs action jobs)

section
variable {m : Machine} {jobs : List Text} {job : Text} {procs : List Proc}

/-- A restarted job always starts: what could be taken for it has just been killed. -/
theorem restart_eq (hown : m.pgrep job m.own = false) :
    restart m job procs = some (procs.filter (fun p => !m.pgrep job (p.cmdline m)) ++ [.child job true]) := by
  have hnone : found m (procs.filter fun p => !m.pgrep job (p.cmdline m)) job = false := by
    rw [found, hown, Bool.false_or, List.any_eq_false]
    intro p hp
    have hmiss := (List.mem_filter.mp hp).2
    simpa using hmiss
  rw [restart, stop, if_neg (by rw [hown]; exact Bool.false_ne_true), Option.bind_some, start, if_neg (by rw [hnone]; exact Bool.false_ne_true)]

theorem restart_none (hown : m.pgrep job m.own = true) : restart m job procs = none := by
  rw [restart, stop, if_pos hown]
  rfl

/-- What a list of restarts leaves: the script comes back unless it takes itself for one of the jobs, and
    then there is left what none of the jobs was taken for, and of the jobs those that no later line is
    taken for. -/
theorem restart_leaves (m : Machine) (jobs : List Text) (procs : List Proc) :
    (runJobs (restart m) jobs procs = none ↔ ∃ job ∈ jobs, m.pgrep job m.own = true) ∧
      ∀ procs', runJobs (restart m) jobs procs = some procs' → ∀ p, p ∈ procs' ↔
        (p ∈ procs ∧ ∀ job ∈ jobs, m.pgrep job (p.cmdline m) = false) ∨
          ∃ before job after, jobs = before ++ job :: after ∧ p = .child job true ∧
            ∀ later ∈ after, m.pgrep later (m.shown job) = false := by
  induction jobs generalizing procs with
  | nil => simp [runJobs]
  | cons job jobs ih =>
    cases hown : m.pgrep job m.own with
    | true =>
      rw [runJobs, restart_none hown]
      simp [hown]
    | false =>
      obtain ⟨hback, hleft⟩ := ih (procs.filter (fun p => !m.pgrep job (p.cmdline m)) ++ [.child job true])
      rw [runJobs, restart_eq hown, Option.bind_some]
      refine ⟨hback.trans (by simp [hown]), fun procs' hrun p => (hleft procs' hrun p).trans ⟨?_, ?_⟩⟩
      · rintro (⟨hp, hmiss⟩ | ⟨before, j, after, rfl, hchild, hlater⟩)
        · rcases List.mem_append.mp hp with hp | hp
          · obtain ⟨hold, hfirst⟩ := List.mem_filter.mp hp
            exact .inl ⟨hold, List.forall_mem_cons.mpr ⟨by simpa using hfirst, hmiss⟩⟩
          · obtain rfl := List.mem_singleton.mp hp
            exact .inr ⟨[], job, jobs, rfl, rfl, hmiss⟩
        · exact .inr ⟨job :: before, j, after, rfl, hchild, hlater⟩
      · rintro (⟨hp, hmiss⟩ | ⟨before, j, after, hsplit, hchild, hlater⟩)
        · obtain ⟨hfirst, hmiss⟩ := List.forall_mem_cons.mp hmiss
          exact .inl ⟨List.mem_append_left _ (List.mem_filter.mpr ⟨hp, by rw [hfirst]; rfl⟩), hmiss⟩
        · cases before with
          | nil =>
            obtain ⟨rfl, rfl⟩ := List.cons.inj hsplit
            refine .inl ⟨List.mem_append_right _ (List.mem_singleton.mpr hchild), ?_⟩
            rw [hchild]
            exact hlater
          | cons first before =>
            exact .inr ⟨before, j, after, (List.cons.inj hsplit).2, hchild, hlater⟩

end

end RubbishStore.Sh
