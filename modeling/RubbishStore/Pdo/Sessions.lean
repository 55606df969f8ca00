import RubbishStore.Lib.Runs
import RubbishStore.Pdo.DataObject

/- Runs of calls. `callStep` is one call on one accessor, of every kind the
   accessor has, under an environment; a call that raises leaves what it changed
   and the run goes on. `Leaves` is what no call changes: the class, the mapping
   and the static suffix, and that an object is built only by the calls that
   load objects, with the static suffix of the moment. -/
namespace RubbishStore.Pdo
open RubbishStore.Lib
open Method

section
variable {V : Type}

/-- The calls that turn rows into objects. -/
def Call.loads : Call V → Bool
  | .query (.terminal .findAll) | .findOnly | .findByPk _ _ | .findByPks _ => true
  | .query (.build _) | .query (.terminal .count) | .query (.terminal (.sum _))
  | .query (.terminal (.max _)) | .query (.terminal (.min _)) | .query (.terminal .update)
  | .query (.terminal (.insert _)) | .query (.terminal .delete) | .nativeSql _ _ _ => false

variable [PhpScalar V]

/-- A call, its result aside. -/
def Call.method [DecidableEq V] : Call V → AccM V Unit
  | .query c => MysqlAccessor.queryCall c
  | .findOnly => do let _ ← MysqlAccessor.findOnly
  | .findByPk id throwException => do let _ ← MysqlAccessor.findByPk id throwException
  | .findByPks ids => do let _ ← MysqlAccessor.findByPks ids
  | .nativeSql sql values readOnly => do let _ ← MysqlAccessor.nativeSql sql values readOnly

/-- What a call leaves alone, and what it builds: nothing unless `loads`. -/
structure Leaves (loads : Bool) (s s' : Self V) : Prop where
  model : s'.this.model = s.this.model
  mapping : s'.this.mapping = s.this.mapping
  suffix : s'.statics.splitSuffix = s.statics.splitSuffix
  autoCommit : s'.statics.autoCommit = s.statics.autoCommit
  built : ∃ objs, s'.this.built = s.this.built ++ objs ∧
    ∀ o ∈ objs, loads = true ∧ MysqlAccessor.BuiltBy s.this s.statics o

namespace Leaves
variable {loads : Bool} {s s' s'' : Self V}

theorem refl (s : Self V) : Leaves loads s s :=
  ⟨rfl, rfl, rfl, rfl, [], (List.append_nil _).symm, by simp⟩

theorem trans (h : Leaves loads s s') (h' : Leaves loads s' s'') : Leaves loads s s'' := by
  obtain ⟨objs, hobjs, hby⟩ := h.built
  obtain ⟨objs', hobjs', hby'⟩ := h'.built
  refine ⟨h'.model.trans h.model, h'.mapping.trans h.mapping, h'.suffix.trans h.suffix,
    h'.autoCommit.trans h.autoCommit, objs ++ objs', ?_, ?_⟩
  · rw [hobjs', hobjs, List.append_assoc]
  · intro o ho
    rcases List.mem_append.mp ho with ho | ho
    · exact hby o ho
    · obtain ⟨hl, obj, r, hc, rfl⟩ := hby' o ho
      rw [h.model, h.suffix] at hc
      refine ⟨hl, obj, r, hc, ?_⟩
      unfold Accessor.fill
      rw [h.mapping]

theorem load (h : Leaves false s s') : Leaves loads s s' := by
  obtain ⟨objs, hobjs, hby⟩ := h.built
  exact ⟨h.model, h.mapping, h.suffix, h.autoCommit, objs, hobjs,
    fun o ho => absurd (hby o ho).1 Bool.false_ne_true⟩

end Leaves

/-- A call that leaves these alone, in every environment. -/
abbrev Steady {α : Type} (loads : Bool) (m : AccM V α) : Prop := Keeps (Leaves loads) m

namespace MysqlAccessor
variable {α β : Type} {loads : Bool}

theorem steady_pure (a : α) : Steady loads (pure a : AccM V α) := keeps_pure Leaves.refl a
theorem steady_throw (e : PhpException) : Steady loads (throw e : AccM V α) :=
  keeps_throw Leaves.refl e
theorem steady_get : Steady loads (get : AccM V (Self V)) := keeps_get Leaves.refl
theorem steady_ask (e : Eff V) : Steady loads (ask e : AccM V e.Ans) := keeps_perform Leaves.refl e

theorem steady_bind {m : AccM V α} {f : α → AccM V β} (hm : Steady loads m)
    (hf : ∀ a, Steady loads (f a)) : Steady loads (m >>= f) :=
  keeps_bind (K := Leaves loads) (fun _ _ _ h h' => h.trans h') hm hf

theorem steady_setThis {f : Accessor V → Accessor V} (hmodel : ∀ a, (f a).model = a.model)
    (hmapping : ∀ a, (f a).mapping = a.mapping) (hbuilt : ∀ a, (f a).built = a.built) :
    Steady loads (setThis f) :=
  keeps_modify fun s => ⟨hmodel s.this, hmapping s.this, rfl, rfl, [],
    (hbuilt s.this).trans (List.append_nil _).symm, by simp⟩

theorem steady_connect : Steady loads (connect : AccM V String) := by
  intro W h s w
  rcases exec_connect_cases h s w with ⟨e, w', hc⟩ | ⟨pool, w', hc⟩
  · rw [hc]
    exact Leaves.refl s
  · rw [hc]
    exact ⟨rfl, rfl, rfl, rfl, [], (List.append_nil _).symm, by simp⟩

theorem steady_executeInternal (t : Terminal) :
    Steady loads (executeInternal t : AccM V (Fetched V)) :=
  steady_bind steady_connect fun _ => steady_bind steady_get fun _ => steady_ask _

theorem steady_prepare (t : Terminal) : Steady loads (setThis (V := V) (·.prepare t)) := by
  refine steady_setThis ?_ ?_ ?_ <;> intro a <;> rw [Accessor.prepare_eq]

theorem steady_executeRead (t : Terminal) : Steady loads (executeRead t : AccM V (Fetched V)) :=
  steady_bind (steady_prepare t) fun _ => steady_executeInternal t

theorem steady_executeWrite (t : Terminal) : Steady loads (executeWrite t : AccM V Nat) :=
  steady_bind (steady_prepare t) fun _ =>
    steady_bind (steady_executeInternal t) fun st => steady_pure st.rowCount

theorem steady_initObjs (rs : List (FetchRow V)) : Steady true (initObjs rs) := by
  intro W h s w
  obtain ⟨objs, hobjs, hexec⟩ := exec_initObjs h s w rs
  rw [hexec]
  exact ⟨rfl, rfl, rfl, rfl, objs, rfl, fun o ho => ⟨rfl, hobjs o ho⟩⟩

theorem steady_findAll : Steady true (findAll : AccM V (List (Obj V))) :=
  steady_bind (steady_executeRead .findAll) fun st => steady_initObjs st.rows

theorem steady_limit (n : Nat) : Steady loads (setThis (V := V) (·.limit n)) :=
  steady_setThis (fun _ => rfl) (fun _ => rfl) fun _ => rfl

theorem steady_findOnly : Steady true (findOnly : AccM V (Option (Obj V))) :=
  steady_bind (steady_limit 1) fun _ => steady_bind steady_findAll fun rs => steady_pure rs.getLast?

theorem steady_findByPkInternal (ids : Operand V) : Steady true (findByPkInternal ids) := by
  refine keeps_get_bind fun W h s w => ?_
  have hfilter : ∀ a, s.this.filter s.this.mapping.keyName ids = .ok a →
      Leaves true s { s with this := a } := by
    intro a ha
    rcases ids with v | (_ | ⟨v, vs⟩)
    · cases ha
      exact ⟨rfl, rfl, rfl, rfl, [], (List.append_nil _).symm, by simp⟩
    · cases ha
    · cases ha
      exact ⟨rfl, rfl, rfl, rfl, [], (List.append_nil _).symm, by simp⟩
  simp only [exec_bind, exec_lift, exec_setThis]
  cases ha : s.this.filter s.this.mapping.keyName ids with
  | error e => exact Leaves.refl s
  | ok a => exact (hfilter a ha).trans (steady_findAll W h _ w)

theorem steady_setCachedObjs (objs : List (Obj V)) : Steady loads (setCachedObjs objs) := by
  induction objs with
  | nil => exact steady_pure ()
  | cons obj objs ih =>
    exact steady_bind steady_get fun _ => steady_bind (steady_ask _) fun _ => ih

theorem steady_cacheIf (c : Bool) (objs : List (Obj V)) {m : AccM V α} (hm : Steady loads m) :
    Steady loads (if c = true then setCachedObjs objs >>= fun _ => m else m) := by
  split
  · exact steady_bind (steady_setCachedObjs objs) fun _ => hm
  · exact hm

theorem steady_loadByPk (id : V) (throwException : Bool) :
    Steady true (loadByPk id throwException) := by
  refine steady_bind (steady_limit 1) fun _ => steady_bind (steady_findByPkInternal _) fun rs => ?_
  cases rs.getLast? with
  | none =>
    cases throwException
    · exact steady_pure none
    · exact steady_throw _
  | some obj =>
    exact steady_bind steady_get fun s =>
      steady_cacheIf s.this.cacheEnable [obj] (steady_pure (some obj))

theorem steady_findByPk (id : V) (throwException : Bool) :
    Steady true (findByPk id throwException) := by
  refine steady_bind steady_get fun s => ?_
  refine keeps_ite _ (steady_bind (steady_ask _) fun hit => ?_) (steady_loadByPk id throwException)
  cases hit with
  | none => exact steady_loadByPk id throwException
  | some obj => exact steady_pure (some obj)

theorem steady_loadByPks [DecidableEq V] (ids : List V) (memObjs : List (Obj V)) :
    Steady true (loadByPks ids memObjs) :=
  steady_bind steady_get fun s => steady_bind (steady_findByPkInternal _) fun dbObjs =>
    steady_cacheIf s.this.cacheEnable dbObjs (steady_pure _)

theorem steady_findByPks [DecidableEq V] (ids : List V) : Steady true (findByPks ids) := by
  refine steady_bind steady_get fun s => ?_
  refine keeps_ite _ (steady_bind (steady_ask _) fun memObjs => ?_) (steady_loadByPks ids [])
  exact keeps_ite _ (steady_pure _) (steady_loadByPks ids _)

theorem steady_nativeSql (sql : String) (values : List (Val V)) (readOnly : Bool) :
    Steady loads (nativeSql sql values readOnly) :=
  steady_bind (steady_setThis (fun _ => rfl) (fun _ => rfl) fun _ => rfl) fun _ =>
    steady_bind steady_connect fun _ => steady_bind (steady_ask _) fun _ => steady_pure _

theorem steady_build (b : Builder V) : Steady loads (build b) := by
  intro W h s w
  have hafter : (b.after s.this).model = s.this.model ∧ (b.after s.this).mapping = s.this.mapping ∧
      (b.after s.this).built = s.this.built := by
    cases b with
    | filter name value => rcases value with v | (_ | ⟨v, vs⟩) <;> exact ⟨rfl, rfl, rfl⟩
    | _ => exact ⟨rfl, rfl, rfl⟩
  rw [exec_build]
  exact ⟨hafter.1, hafter.2.1, rfl, rfl, [], by simp [hafter.2.2], by simp⟩

end MysqlAccessor

/-- Every call leaves the class, the mapping and the static suffix alone, and
    only a call that loads builds objects. -/
theorem Call.steady [DecidableEq V] (c : Call V) : Steady c.loads c.method := by
  have hdrop : ∀ {α : Type} {loads : Bool} {m : AccM V α}, Steady loads m →
      Steady loads (do let _ ← m) :=
    fun hm => MysqlAccessor.steady_bind hm fun _ => MysqlAccessor.steady_pure ()
  cases c with
  | query c =>
    cases c with
    | build b => exact MysqlAccessor.steady_build b
    | terminal t =>
      cases t with
      | findAll => exact hdrop MysqlAccessor.steady_findAll
      | count | sum | max | min =>
        exact hdrop (MysqlAccessor.steady_bind (MysqlAccessor.steady_executeRead _) fun _ =>
          MysqlAccessor.steady_pure _)
      | update | insert | delete => exact hdrop (MysqlAccessor.steady_executeWrite _)
  | findOnly => exact hdrop MysqlAccessor.steady_findOnly
  | findByPk id throwException => exact hdrop (MysqlAccessor.steady_findByPk id throwException)
  | findByPks ids => exact hdrop (MysqlAccessor.steady_findByPks ids)
  | nativeSql sql values readOnly => exact hdrop (MysqlAccessor.steady_nativeSql sql values readOnly)

end

end RubbishStore.Pdo
