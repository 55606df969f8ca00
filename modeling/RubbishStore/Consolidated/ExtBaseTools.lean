import Mathlib.Data.List.Infix
import Mathlib.Data.List.Nodup
import RubbishStore.Lib.Shell

/- `parse_db_conf_to_command` of `ext_base_tools.sh`, which turns a line of a
   configuration such as `db=bat host=xxxxx port=xxxx user=xxxxxxx pass=xxxx` into a
   command line of mysql. Each token is tested for each of five keys, and a token counts
   for a key wherever the key and its `=` stand in it; its value is then what is behind a
   fixed column. So a value of the line reaches the command unless a token behind its own
   has the key in it, too, and something else behind the column
   (`parseDbConfToCommand_iff`). -/
namespace RubbishStore.Consolidated.ExtBaseTools
open RubbishStore.Lib RubbishStore.Lib.Shell

/-- The local variables, each with the key of its name. -/
inductive Field where
  | db | host | port | user | pass
  deriving DecidableEq, Repr

namespace Field

def name : Field → Octets
  | db => octets "db"
  | host => octets "host"
  | port => octets "port"
  | user => octets "user"
  | pass => octets "pass"

/-- What `grep` looks for. -/
def pattern : Field → Octets
  | db => octets "db="
  | host => octets "host="
  | port => octets "port="
  | user => octets "user="
  | pass => octets "pass="

/-- The column that `cut -c` starts at. -/
def column : Field → Nat
  | db => 4
  | host => 6
  | port => 6
  | user => 6
  | pass => 6

end Field

/-- The variables' values. A variable without one in the function is the caller's. -/
abbrev Vars : Type := Field → Octets

/-- `grep` on one line. -/
def grep (pattern line : Octets) : Octets := if pattern <:+: line then line else []

/-- `cut -c column-` -/
def cut (column : Nat) (line : Octets) : Octets := line.drop (column - 1)

/-- The body of the loop. -/
def readRow (paths : Pathnames) (vars : Vars) (row : Octets) : Vars := fun f =>
  let echoed := echo (unquoted paths row)
  if grep f.pattern echoed ≠ [] then cut f.column echoed else vars f

/-- The variables behind the loop over the words of the line. -/
def confVars (paths : Pathnames) (vars : Vars) (line : Octets) : Vars :=
  let confArry := unquoted paths line
  (confArry.flatMap (unquoted paths)).foldl (readRow paths) vars

/-- `$mysql_db_command` -/
def mysqlDbCommand (vars : Vars) : Octets :=
  octets "mysql -N -h" ++ vars .host ++ octets " -u" ++ vars .user ++ octets " -p" ++ vars .pass ++
    octets " -P" ++ vars .port ++ octets " -A " ++ vars .db

def parseDbConfToCommand (paths : Pathnames) (vars : Vars) (line : Octets) : Octets :=
  mysqlDbCommand (confVars paths vars line)

/-- `key=value` -/
def token (p : Octets × Octets) : Octets := p.1 ++ 61 :: p.2

/-- A line of the configuration: its keys are different, and neither they nor the values
    have anything in them that is special to the shell. -/
structure ConfLine where
  pairs : List (Octets × Octets)
  distinct : (pairs.map Prod.fst).Nodup
  keys : ∀ p ∈ pairs, ∀ b ∈ p.1, b ∉ special ∧ b ≠ 61
  values : ∀ p ∈ pairs, ∀ b ∈ p.2, b ∉ special

def ConfLine.text (line : ConfLine) : Octets := [32].intercalate (line.pairs.map token)

/-- Behind the key's own token, the last one that has the key and `=` in it, if there is
    one, has the key's value behind the column, too. -/
def Undisturbed (line : ConfLine) (f : Field) : Prop :=
  ∀ before v after, line.pairs = before ++ (f.name, v) :: after →
    ∀ t ∈ ((after.map token).filter (f.pattern <:+: ·)).getLast?, cut f.column t = v

theorem pattern_eq (f : Field) : f.pattern = f.name ++ [61] := by
  cases f <;> simp only [Field.pattern, Field.name, octets_eq] <;> rfl

theorem column_eq (f : Field) : f.column - 1 = f.pattern.length := by
  cases f <;> simp only [Field.column, Field.pattern, octets_eq] <;> rfl

/-- A key of the line has one value. -/
theorem value_unique (line : ConfLine) {k v v' : Octets} (hv : (k, v) ∈ line.pairs) (hv' : (k, v') ∈ line.pairs) :
    v = v' :=
  congrArg Prod.snd (List.inj_on_of_nodup_map line.distinct hv hv' rfl)

/-- The key's own token. -/
theorem token_own (f : Field) (v : Octets) :
    f.pattern <:+: token (f.name, v) ∧ cut f.column (token (f.name, v)) = v := by
  have htoken : token (f.name, v) = f.pattern ++ v := by
    rw [token, pattern_eq, List.append_assoc]
    rfl
  rw [htoken, cut, column_eq, List.drop_left]
  exact ⟨(List.prefix_append _ _).isInfix, rfl⟩

theorem mem_pairs_of_last {line : ConfLine} {f : Field} {before after : List (Octets × Octets)} {v t : Octets}
    (hsplit : line.pairs = before ++ (f.name, v) :: after)
    (ht : t ∈ ((after.map token).filter (f.pattern <:+: ·)).getLast?) :
    ∃ p ∈ line.pairs, f.pattern <:+: token p ∧ token p = t := by
  obtain ⟨htoken, hfound⟩ := List.mem_filter.mp (List.mem_of_getLast? ht)
  obtain ⟨p, hp, rfl⟩ := List.mem_map.mp htoken
  refine ⟨p, ?_, of_decide_eq_true hfound, rfl⟩
  rw [hsplit]
  exact List.mem_append_right _ (List.mem_cons_of_mem _ hp)

/-- Nothing gets in the way of a key when no value has `=` in it and no other key ends
    with this one. -/
theorem undisturbed_of_plain {line : ConfLine} {f : Field} (hkeys : ∀ p ∈ line.pairs, f.name <:+ p.1 → p.1 = f.name)
    (hvalues : ∀ p ∈ line.pairs, 61 ∉ p.2) : Undisturbed line f := by
  intro before v after hsplit t ht
  obtain ⟨⟨k, w⟩, hp, ⟨s, rest, hfound⟩, rfl⟩ := mem_pairs_of_last hsplit ht
  have hequals : k ++ 61 :: w = (s ++ f.name) ++ 61 :: rest := by
    rw [pattern_eq] at hfound
    simpa [token] using hfound.symm
  obtain ⟨hkey, -, -⟩ :=
    (List.append_cons_inj_of_notMem (fun h => (line.keys _ hp 61 h).2 rfl) (hvalues _ hp)).mp hequals
  -- the token is the key's own, since the keys are different
  obtain rfl : k = f.name := hkeys _ hp ⟨s, hkey.symm⟩
  have hown : (f.name, v) ∈ line.pairs := by
    rw [hsplit]
    exact List.mem_append_right _ List.mem_cons_self
  rw [value_unique line hown hp]
  exact (token_own f w).2

section
variable (paths : Pathnames) (vars : Vars)

theorem isWord_token {line : ConfLine} {p : Octets × Octets} (hp : p ∈ line.pairs) : IsWord (token p) := by
  refine ⟨List.append_ne_nil_of_right_ne_nil _ (List.cons_ne_nil _ _), ?_⟩
  rw [token, List.forall_mem_append, List.forall_mem_cons]
  exact ⟨fun b hb => (line.keys p hp b hb).1, by decide, line.values p hp⟩

/-- One token. -/
theorem readRow_token {p : Octets × Octets} (hword : IsWord (token p)) (f : Field) :
    readRow paths vars (token p) f =
      if f.pattern <:+: token p then cut f.column (token p) else vars f := by
  have hecho : echo (unquoted paths (token p)) = token p := by
    rw [unquoted_word paths hword]
    exact echo_word (isEchoOption_of_mem (List.mem_append_right _ List.mem_cons_self))
  simp only [readRow, hecho, grep]
  -- `grep` gives the token or nothing, and a token is not empty
  by_cases hfound : f.pattern <:+: token p
  · rw [if_pos hfound, if_pos hfound, if_pos hword.ne_nil]
  · rw [if_neg hfound, if_neg hfound, if_neg (not_not.mpr rfl)]

theorem foldl_readRow {ps : List (Octets × Octets)} (hwords : ∀ p ∈ ps, IsWord (token p)) (f : Field) :
    (ps.map token).foldl (readRow paths) vars f =
      (ps.map token).foldl (fun old t => if f.pattern <:+: t then cut f.column t else old) (vars f) := by
  induction ps generalizing vars with
  | nil => rfl
  | cons p ps ih =>
    obtain ⟨hp, hps⟩ := List.forall_mem_cons.mp hwords
    rw [List.map_cons, List.foldl_cons, List.foldl_cons, ih _ hps, readRow_token paths vars hp]

/-- The whole line: the last token with the key in it counts. -/
theorem confVars_eq (line : ConfLine) (f : Field) :
    confVars paths vars line.text f =
      ((((line.pairs.map token).filter (f.pattern <:+: ·)).getLast?).map (cut f.column)).getD (vars f) := by
  have hwords : ∀ w ∈ line.pairs.map token, IsWord w := by
    intro w hw
    obtain ⟨p, hp, rfl⟩ := List.mem_map.mp hw
    exact isWord_token hp
  have hagain : (line.pairs.map token).flatMap (unquoted paths) = line.pairs.map token := by
    rw [List.flatMap_congr fun w hw => unquoted_word paths (hwords w hw)]
    exact List.flatMap_singleton' _
  -- the array is split and expanded again, to no effect
  rw [confVars, ConfLine.text, unquoted_words paths hwords]
  simp only [hagain]
  rw [foldl_readRow paths vars fun p hp => isWord_token hp]
  simpa only [decide_eq_true_eq] using
    foldl_assign (fun t => decide (f.pattern <:+: t)) (cut f.column) (line.pairs.map token) (vars f)

/-- The tokens before the key's own do not count. -/
theorem confVars_of_split {line : ConfLine} {f : Field} {before after : List (Octets × Octets)} {v : Octets}
    (hsplit : line.pairs = before ++ (f.name, v) :: after) :
    confVars paths vars line.text f =
      ((((after.map token).filter (f.pattern <:+: ·)).getLast?).map (cut f.column)).getD v := by
  obtain ⟨hfound, hcut⟩ := token_own f v
  rw [confVars_eq, hsplit, List.map_append, List.map_cons, List.filter_append,
    List.filter_cons_of_pos (a := token (f.name, v)) (decide_eq_true hfound), List.getLast?_append, List.getLast?_cons]
  cases ((after.map token).filter (f.pattern <:+: ·)).getLast? with
  | none => exact hcut
  | some t => rfl

theorem undisturbed_iff (line : ConfLine) (f : Field) :
    Undisturbed line f ↔ ∀ v, (f.name, v) ∈ line.pairs → confVars paths vars line.text f = v := by
  have hvalue : ∀ before v after, line.pairs = before ++ (f.name, v) :: after →
      (confVars paths vars line.text f = v ↔
        ∀ t ∈ ((after.map token).filter (f.pattern <:+: ·)).getLast?, cut f.column t = v) := by
    intro before v after hsplit
    rw [confVars_of_split paths vars hsplit]
    cases ((after.map token).filter (f.pattern <:+: ·)).getLast? with
    | none => simp
    | some t => simp
  constructor
  · intro h v hv
    obtain ⟨before, after, hsplit⟩ := List.append_of_mem hv
    exact (hvalue before v after hsplit).mpr (h before v after hsplit)
  · intro h before v after hsplit
    refine (hvalue before v after hsplit).mp (h v ?_)
    rw [hsplit]
    exact List.mem_append_right _ List.mem_cons_self

/-- A variable that the line has a key for has no blank in it. -/
theorem blank_not_mem_confVars {line : ConfLine} {f : Field} {v : Octets} (hv : (f.name, v) ∈ line.pairs) :
    32 ∉ confVars paths vars line.text f := by
  obtain ⟨before, after, hsplit⟩ := List.append_of_mem hv
  rw [confVars_of_split paths vars hsplit]
  cases hlast : ((after.map token).filter (f.pattern <:+: ·)).getLast? with
  | none => exact fun hblank => line.values _ hv 32 hblank (by decide)
  | some t =>
    obtain ⟨p, hp, -, rfl⟩ := mem_pairs_of_last hsplit hlast
    exact fun hblank => (isWord_token hp).blank_not_mem (List.mem_of_mem_drop hblank)

end

/-- The arguments of mysql, with its name before them. -/
def arguments (vars : Vars) : List Octets :=
  [octets "mysql", octets "-N", octets "-h" ++ vars .host, octets "-u" ++ vars .user, octets "-p" ++ vars .pass,
    octets "-P" ++ vars .port, octets "-A", vars .db]

theorem mysqlDbCommand_eq (vars : Vars) : mysqlDbCommand vars = [32].intercalate (arguments vars) := by
  simp [mysqlDbCommand, arguments, octets_eq, List.intercalate]

theorem blank_not_mem_arguments {vars : Vars} (h : ∀ f, 32 ∉ vars f) : ∀ a ∈ arguments vars, 32 ∉ a := by
  simp only [arguments, octets_eq, List.forall_mem_cons, List.mem_append, h, or_false]
  decide

/-- The command tells the values, when they have no blanks in them. -/
theorem mysqlDbCommand_inj {vars vars' : Vars} (h : ∀ f, 32 ∉ vars f) (h' : ∀ f, 32 ∉ vars' f) :
    mysqlDbCommand vars = mysqlDbCommand vars' ↔ ∀ f, vars f = vars' f := by
  refine ⟨fun heq => ?_, fun heq => by rw [funext heq]⟩
  rw [mysqlDbCommand_eq, mysqlDbCommand_eq] at heq
  have harguments := intercalate_injective (List.cons_ne_nil _ _) (List.cons_ne_nil _ _)
    (blank_not_mem_arguments h) (blank_not_mem_arguments h') heq
  simp only [List.cons.injEq, List.append_cancel_left_eq, and_true, true_and] at harguments
  obtain ⟨hhost, huser, hpass, hport, hdb⟩ := harguments
  intro f
  cases f <;> assumption

/-- Each value of the line reaches its variable, and with five of them the command,
    exactly when no token behind its own gets in its way. -/
theorem parseDbConfToCommand_iff (paths : Pathnames) (vars : Vars) (line : ConfLine) :
    (∀ f, (∀ v, (f.name, v) ∈ line.pairs → confVars paths vars line.text f = v) ↔ Undisturbed line f) ∧
    ∀ values : Vars, (∀ f, (f.name, values f) ∈ line.pairs) →
      (parseDbConfToCommand paths vars line.text = mysqlDbCommand values ↔ ∀ f, Undisturbed line f) := by
  refine ⟨fun f => (undisturbed_iff paths vars line f).symm, fun values hvalues => ?_⟩
  have hplain : ∀ f, 32 ∉ values f := fun f hblank => line.values _ (hvalues f) 32 hblank (by decide)
  rw [parseDbConfToCommand, mysqlDbCommand_inj (fun f => blank_not_mem_confVars paths vars (hvalues f)) hplain]
  refine forall_congr' fun f => ?_
  rw [undisturbed_iff paths vars line f]
  -- with different keys the line has one value for each
  constructor
  · intro heq v hv
    rw [heq]
    exact value_unique line (hvalues f) hv
  · exact fun h => h _ (hvalues f)

/-- The example of the comment, with a password that has the first key in it. -/
def passwordLine : ConfLine where
  pairs :=
    [(octets "db", octets "bat"), (octets "host", octets "xxxxx"), (octets "port", octets "3306"),
      (octets "weight", octets "1"), (octets "user", octets "rd"), (octets "pass", octets "adb=7"),
      (octets "master", octets "0")]
  distinct := by
    simp only [octets_eq]
    decide
  keys := by simp [octets_eq, special]
  values := by simp [octets_eq, special]

def passwordValues : Vars
  | .db => octets "bat"
  | .host => octets "xxxxx"
  | .port => octets "3306"
  | .user => octets "rd"
  | .pass => octets "adb=7"

/-- Its command is for the database `s=adb=7`. -/
theorem parseDbConfToCommand_password :
    (∀ f, (f.name, passwordValues f) ∈ passwordLine.pairs) ∧
    parseDbConfToCommand Pathnames.empty (fun _ => []) passwordLine.text =
      mysqlDbCommand (fun f => if f = .db then octets "s=adb=7" else passwordValues f) ∧
    parseDbConfToCommand Pathnames.empty (fun _ => []) passwordLine.text ≠ mysqlDbCommand passwordValues := by
  have hvars : ∀ f, confVars Pathnames.empty (fun _ => []) passwordLine.text f =
      if f = .db then octets "s=adb=7" else passwordValues f := by
    intro f
    rw [confVars_eq]
    cases f <;>
      simp +decide [passwordLine, token, Field.pattern, Field.column, cut, passwordValues, octets_eq]
  have hcommand := congrArg mysqlDbCommand (funext hvars)
  refine ⟨fun f => ?_, hcommand, fun heq => ?_⟩
  · cases f <;> simp [Field.name, passwordValues, passwordLine]
  · have hlength := congrArg List.length (hcommand.symm.trans heq)
    simp [mysqlDbCommand, passwordValues, octets_eq] at hlength

end RubbishStore.Consolidated.ExtBaseTools
