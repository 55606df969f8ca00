import RubbishStore.Pdo.Sessions

/- Which server a write reaches. The connection is named at execution time, from
   `read_only` and `force_master`; the find calls and `native_sql` leave
   `read_only` as they set it, and no write resets it. -/
namespace RubbishStore.Pdo
open RubbishStore.Lib
open MysqlAccessor

/-- The terminal calls that write. -/
def Terminal.writes : Terminal → Bool
  | .update | .insert _ | .delete => true
  | .findAll | .count | .sum _ | .max _ | .min _ => false

section
variable {V : Type}

/-- The connection a write is executed on, from the flags it meets. -/
theorem pdoName_prepare (a : Accessor V) {t : Terminal} (ht : t.writes = true) :
    (a.prepare t).pdoName = a.pdoName := by
  have hfind : ¬ t = .findAll := by
    rintro rfl
    exact Bool.false_ne_true ht
  rw [Accessor.prepare_eq, if_neg hfind]
  rfl

theorem pdoName_eq_master {a : Accessor V} {cls : ModelClass V} (hmodel : a.model = cls) :
    a.pdoName = cls.getPdoMasterName ↔
      a.readOnly = false ∨ a.masterForced = true ∨ cls.getPdoSlaveName = cls.getPdoMasterName := by
  unfold Accessor.pdoName ModelClass.getPdoName
  rw [hmodel]
  cases a.readOnly <;> cases a.masterForced <;> simp

variable [PhpScalar V] [DecidableEq V] {W : Type}

/-- One call on an accessor under an environment. -/
def callStep (h : Outside V W) (x : Self V × W) (c : Call V) : Self V × W :=
  (Method.exec h c.method x.1 x.2).2

/-- A write of the class is executed on its master. -/
def WritesOnMaster (h : Outside V W) (cls : ModelClass V) (x : Self V × W) (c : Call V) : Prop :=
  ∀ t, c = .query (.terminal t) → t.writes = true →
    ∀ con sent, .execute con sent ∈ Method.effects h c.method x.1 x.2 → con = cls.getPdoMasterName

/-- No read has left `read_only` on when a write is made, or the master is
    forced, or master and slave are one. -/
def MeetsMaster (cls : ModelClass V) (x : Self V × W) (c : Call V) : Prop :=
  ∀ t, c = .query (.terminal t) → t.writes = true →
    x.1.this.readOnly = false ∨ x.1.this.masterForced = true ∨
      cls.getPdoSlaveName = cls.getPdoMasterName

/-- What a run of calls keeps of the accessor it started with. -/
theorem run_leaves (h : Outside V W) (x : Self V × W) (cs : List (Call V)) :
    (run (callStep h) x cs).1.this.model = x.1.this.model ∧
      (run (callStep h) x cs).1.statics.autoCommit = x.1.statics.autoCommit := by
  refine run_inv (I := fun y : Self V × W => y.1.this.model = x.1.this.model ∧
    y.1.statics.autoCommit = x.1.statics.autoCommit) ⟨rfl, rfl⟩ atEach_true ?_
  rintro y c ⟨hmodel, hauto⟩ -
  have hleaves : Leaves c.loads y.1 (callStep h y c).1 := c.steady W h y.1 y.2
  exact ⟨hleaves.model.trans hmodel, hleaves.autoCommit.trans hauto⟩

end

end RubbishStore.Pdo
