import Mathlib.Data.List.Dedup
import RubbishStore.Lib.Keyed
import RubbishStore.Pdo.Calls

/- MySQL and memcache behind the accessor. A table is a list of rows with a
   primary key each; `Engine` is what depends on the server's types, collations
   and counters, and `Engine.execute` what a statement does. `Engine.serve`
   answers a process: one database behind every connection, and a cache. A fault
   makes a call raise before it does anything. Transactions are answered and
   have no effect of their own: no statement is undone here.
   Seen from outside, a table is the map `Table.row` from keys to rows; the
   statements on one key are the operations `row_*` on it. -/
namespace RubbishStore.Pdo
open RubbishStore.Lib

section
variable {V : Type}

/-- A column of a row. -/
def cell (column : String) (r : FetchRow V) : Val V := (r.lookup column).join

/-- The server: the columns, key and defaults of each table, how a column stores
    a value, what an operator and a where text of the caller's mean, the order of
    a result, aggregates, and the next key of a table. -/
structure Engine (V : Type) where
  columns : String → List String
  keyColumn : String → String
  defaults : String → String → Val V
  store : String → String → V → V
  compare : String → Val V → Operand V → Bool
  userTest : String → List (Val V) → FetchRow V → Bool
  arrange : List (String × String) → List (FetchRow V) → List (FetchRow V)
  summarize : String → List (Val V) → Val V
  nextKey : String → List (FetchRow V) → V
  native : String → List (Val V) → Fetched V
  /-- equality with a value, which NULL never has -/
  compare_eq : ∀ v u, compare "=" v (.scalar (some u)) = true ↔ v = some u
  /-- one of several values -/
  compare_in : ∀ v us, compare "in" v (.list us) = true ↔ v ≠ none ∧ v ∈ us
  arrange_perm : ∀ order rows, (arrange order rows).Perm rows

/-- The rows of a table: each has every column, and keys are distinct and not
    NULL. -/
structure Table (V : Type) (columns : List String) (keyColumn : String) where
  rows : List (FetchRow V)
  shaped : ∀ r ∈ rows, assocKeys r = columns
  distinct : DistinctKeys (cell keyColumn) rows
  keyed : ∀ r ∈ rows, cell keyColumn r ≠ none

/-- The tables, memcache, and what `lastInsertId` answers. -/
structure World (E : Engine V) where
  table : (name : String) → Table V (E.columns name) (E.keyColumn name)
  cache : List (String × Obj V) := []
  lastId : Val V := none

namespace Table
variable {columns : List String} {keyColumn : String} (t : Table V columns keyColumn)

/-- The rows that `p` keeps. -/
def keep (p : FetchRow V → Bool) : Table V columns keyColumn where
  rows := t.rows.filter p
  shaped r hr := t.shaped r (List.mem_filter.mp hr).1
  distinct := t.distinct.filter p
  keyed r hr := t.keyed r (List.mem_filter.mp hr).1

variable [DecidableEq V]

/-- The row of a key. -/
def row (id : V) : Option (FetchRow V) := findKey (cell keyColumn) t.rows (some id)

instance {key : FetchRow V → Val V} {rows : List (FetchRow V)} : Decidable (DistinctKeys key rows) :=
  inferInstanceAs (Decidable (rows.map key).Nodup)

/-- The table with other rows, if they make one. -/
def ofRows (rows : List (FetchRow V)) : Option (Table V columns keyColumn) :=
  if h : (∀ r ∈ rows, assocKeys r = columns) ∧ DistinctKeys (cell keyColumn) rows ∧
      ∀ r ∈ rows, cell keyColumn r ≠ none then
    some ⟨rows, h.1, h.2.1, h.2.2⟩
  else none

end Table

variable [DecidableEq V]

def World.setTable {E : Engine V} (w : World E) (name : String)
    (t : Table V (E.columns name) (E.keyColumn name)) : World E :=
  { w with table := Function.update w.table name t }

namespace Engine
variable (E : Engine V)

/-- The rows a statement is about. -/
def meets (s : Stmt V) (r : FetchRow V) : Bool :=
  s.conds.all (fun c => E.compare c.op (cell c.column r) c.operand) &&
    s.userWhere.all fun u => E.userTest u.1 u.2 r

/-- `limit`, with its offset. -/
def limited (limit : Option (Option Nat × Nat)) (rows : List (FetchRow V)) : List (FetchRow V) :=
  match limit with
  | none => rows
  | some (offset, n) => (rows.drop (offset.getD 0)).take n

/-- The rows of the statement's table it is about, in the order of the result. -/
def matching (w : World E) (s : Stmt V) : List (FetchRow V) :=
  E.arrange s.orderBy ((w.table s.table).rows.filter (E.meets s))

/-- The rows of a `select`. -/
def select (w : World E) (s : Stmt V) (fields : List String) (distinct : Bool) : List (FetchRow V) :=
  let rows := (E.matching w s).map fun r =>
    if fields.isEmpty then r else fields.map fun f => (f, cell f r)
  limited s.limit (if distinct then rows.dedup else rows)

/-- A row after `set`. -/
def written (table : String) (sets : List (String × Val V)) (r : FetchRow V) : FetchRow V :=
  r.map fun p =>
    (p.1, match sets.lookup p.1 with
      | some v => v.map (E.store table p.1)
      | none => p.2)

/-- The row of an `insert`: a column not given takes its default, the key its
    next value. -/
def newRow (table : String) (rows : List (FetchRow V)) (sets : List (String × Val V)) : FetchRow V :=
  (E.columns table).map fun c =>
    (c, match (sets.lookup c) with
      | some (some v) => some (E.store table c v)
      | some none => if c = E.keyColumn table then some (E.nextKey table rows) else none
      | none => if c = E.keyColumn table then some (E.nextKey table rows) else E.defaults table c)

def duplicateEntry : PhpException :=
  { message := "SQLSTATE[23000]: Integrity constraint violation: 1062 Duplicate entry"
    code := "23000" }

def syntaxError : PhpException :=
  { message := "SQLSTATE[42000]: Syntax error or access violation: 1064", code := "42000" }

def invalidParameterNumber : PhpException :=
  { message := "SQLSTATE[HY093]: Invalid parameter number", code := "HY093" }

def update (w : World E) (s : Stmt V) : Except PhpException (Fetched V) × World E :=
  let edit r := if E.meets s r then E.written s.table s.sets r else r
  let changed := (w.table s.table).rows.countP fun r => edit r ≠ r
  match Table.ofRows ((w.table s.table).rows.map edit) with
  | some t => (.ok { rowCount := changed }, w.setTable s.table t)
  | none => (.error duplicateEntry, w)

def insert (w : World E) (s : Stmt V) (type : String) : Except PhpException (Fetched V) × World E :=
  let r := E.newRow s.table (w.table s.table).rows s.sets
  let id := cell (E.keyColumn s.table) r
  let others :=
    if type = "replace" then (w.table s.table).rows.filter (fun r' => cell (E.keyColumn s.table) r' ≠ id)
    else (w.table s.table).rows
  if type = "insert" ∨ type = "replace" then
    match Table.ofRows (others ++ [r]) with
    | some t =>
      (.ok { rowCount := (w.table s.table).rows.length - others.length + 1 },
        { w.setTable s.table t with lastId := id })
    | none => (.error duplicateEntry, w)
  else (.error syntaxError, w)

def delete (w : World E) (s : Stmt V) : Except PhpException (Fetched V) × World E :=
  let removed := limited s.limit (E.matching w s)
  (.ok { rowCount := removed.length },
    w.setTable s.table ((w.table s.table).keep fun r => r ∉ removed))

variable [PhpScalar V]

/-- What a statement does. -/
def execute (w : World E) (s : Stmt V) : Except PhpException (Fetched V) × World E :=
  match s.verb with
  | .select fields distinct =>
    let rows := E.select w s fields distinct
    (.ok { rows := rows, rowCount := rows.length }, w)
  | .count =>
    (.ok { rows := [[("count(1)", some (PhpScalar.ofInt (E.matching w s).length))]], rowCount := 1 }, w)
  | .aggregate fn column =>
    (.ok { rows := [[(fn, E.summarize fn ((E.matching w s).map (cell column)))]], rowCount := 1 }, w)
  | .update => E.update w s
  | .insert type => E.insert w s type
  | .delete => E.delete w s

/-- The map of the keys a multi-get finds. -/
def found {κ β : Type} [DecidableEq κ] (cache : List (κ × β)) (keys : List κ) : List (κ × β) :=
  keys.foldl
    (fun m k =>
      match cache.lookup k with
      | some o => assocSet m k o
      | none => m) []

/-- The answers without faults. -/
def answer : Outside V (World E)
  | .beginTransaction _, w | .commit _, w | .rollBack _, w => (.ok (), w)
  | .execute _ sent, w =>
    if sent.values = sent.stmt.values then E.execute w sent.stmt
    else (.error invalidParameterNumber, w)
  | .executeNative _ sql values, w => (.ok (E.native sql values), w)
  | .lastInsertId _, w => (.ok w.lastId, w)
  | .cacheGet key, w => (.ok (w.cache.lookup key), w)
  | .cacheGetMulti keys, w => (.ok (found w.cache keys), w)
  | .cacheSet key obj _, w => (.ok (), { w with cache := assocSet w.cache key obj })
  | .cacheDelete key, w => (.ok (), { w with cache := assocErase w.cache key })

/-- Database and cache, with the calls that raise. -/
def serve (fault : Eff V → Option PhpException) : Outside V (World E) := fun e w =>
  match fault e with
  | some err => (.error err, w)
  | none => E.answer e w

end Engine

end

/-! A server to evaluate on. -/

/-- Tables of users, their state "new" by default; every text is stored as it is. -/
def userEngine : Engine String where
  columns _ := ["user_id", "user_name", "state"]
  keyColumn _ := "user_id"
  defaults _ column := if column = "state" then some "new" else none
  store _ _ v := v
  compare
    | "=", v, .scalar (some u) => v = some u
    | "in", v, .list us => v ≠ none && us.contains v
    | _, _, _ => false
  userTest _ _ _ := false
  arrange _ rows := rows
  summarize _ _ := none
  nextKey _ rows := toString (rows.length + 1)
  native _ _ := {}
  compare_eq := by simp
  compare_in := by simp
  arrange_perm _ _ := List.Perm.refl _

/-- One user. -/
def annRow : FetchRow String := [("user_id", some "7"), ("user_name", some "ann"), ("state", some "new")]

def annTable : Table String ["user_id", "user_name", "state"] "user_id" where
  rows := [annRow]
  shaped := by decide
  distinct := by decide
  keyed := by decide

/-- Her row in every table. -/
def annWorld (cache : List (String × Obj String) := []) : World userEngine where
  table _ := annTable
  cache := cache

end RubbishStore.Pdo
