import RubbishStore.Pdo.RowCache

/- A write that raises. Cache and statement are two calls, and each can raise. A
   delete drops the cached object first, an insert caches last: wherever they
   stop, the key is as coherent as before. An update caches `$this` before its
   statement, so a statement that raises leaves the new values in the cache and
   the old ones in the table. -/
namespace RubbishStore.Pdo
open RubbishStore.Lib
open Method

section
variable {V : Type} [DecidableEq V] [PhpScalar V] {E : Engine V}

/-- The statement raises: on the way to the server, or there. -/
def Refused (fault : Eff V → Option PhpException) (w : World E) (a : Accessor V) (t : Terminal) : Prop :=
  fault (.execute (a.prepare t).pdoName ((a.prepare t).sent t)) ≠ none ∨
    ∃ e, (E.execute w (a.stmt t)).1 = .error e

namespace DataObject

/-- A call that raised, and the world after it. -/
def Raised {σ α : Type} (r : (Except PhpException α × σ) × World E) (w' : World E) : Prop :=
  (∃ e, r.1.1 = .error e) ∧ r.2 = w'

variable {cls : ModelClass V} {fault : Eff V → Option PhpException} {s : ObjSelf V} {w w' : World E}
  {id : V}

omit [PhpScalar V] in
/-- Whether an update raises does not depend on the cache. -/
theorem fst_update_put (o : Obj V) (stmt : Stmt V) :
    (E.update (w.put cls id o) stmt).1 = (E.update w stmt).1 := by
  have htable : (w.put cls id o).table = w.table := rfl
  unfold Engine.update
  simp only [htable]
  split <;> rfl

/-- A statement on the object's own row either goes through, or raises and
    changes nothing. -/
theorem run_sendsOwn (hbegin : ∀ con, fault (.beginTransaction con) = none) {a : Accessor V}
    (ha : a.pdoValues = []) (t : Terminal) :
    (Refused fault w a t ∧ Raised ((sendsOwn s a t).run (E.serve fault) w) w) ∨
      (¬Refused fault w a t ∧ ∃ n, ((sendsOwn s a t).run (E.serve fault) w).1.1 = .ok n) := by
  unfold sendsOwn Refused
  rw [run_sends hbegin ha]
  dsimp only
  cases hfault : fault (.execute (a.prepare t).pdoName ((a.prepare t).sent t)) with
  | some err =>
    exact .inl ⟨.inl (Option.some_ne_none err), ⟨err, rfl⟩, rfl⟩
  | none =>
    cases hexecute : E.execute w (a.stmt t) with
    | mk r w₁ =>
      cases r with
      | error err =>
        have hw : w₁ = w := Engine.execute_error hexecute
        subst hw
        exact .inl ⟨.inr ⟨err, rfl⟩, ⟨err, rfl⟩, rfl⟩
      | ok f =>
        refine .inr ⟨?_, f.rowCount, rfl⟩
        intro hcase
        rcases hcase with hne | ⟨e, he⟩
        · exact hne rfl
        · cases he

/-- If the call raised, the key is coherent after it. -/
def KeepsAt {σ α : Type} (cls : ModelClass V) (suffix : String) (id : V)
    (r : (Except PhpException α × σ) × World E) : Prop :=
  (∃ e, r.1.1 = .error e) → r.2.CoherentAt cls suffix id

omit [PhpScalar V] in
theorem keepsAt_ok {σ α : Type} {suffix : String} {r : (Except PhpException α × σ) × World E} {a : α}
    (h : r.1.1 = .ok a) : KeepsAt cls suffix id r := by
  intro hraised
  obtain ⟨e, he⟩ := hraised
  rw [h] at he
  cases he

theorem refused_put (o : Obj V) (id : V) (o' : Obj V) :
    Refused fault (w.put cls id o) (updater cls o') .update ↔ Refused fault w (updater cls o') .update := by
  have hexecute : (E.execute (w.put cls id o) ((updater cls o').stmt .update)).1 =
      (E.execute w ((updater cls o').stmt .update)).1 := by
    rw [stmt_updater]
    exact fst_update_put o _
  unfold Refused
  rw [hexecute]

/-- An update whose statement raises after the object was cached, where the row is
    not the object's. -/
def Strands (fault : Eff V → Option PhpException) (w : World E) (cls : ModelClass V) (o : Obj V)
    (id : V) : Prop :=
  cls.cacheEnable = true ∧ fault (.cacheSet (cls.getObjKey (some id)) o (o.get "cache_expire")) = none ∧
    Refused fault w (updater cls o) .update ∧
    ¬∃ r, w.rowOf cls o.splitSuffix id = some r ∧ cls.Shows o.splitSuffix o r

theorem keepsAt_update_iff (hst : cls.Stored E s.this.splitSuffix)
    (hbegin : ∀ con, fault (.beginTransaction con) = none)
    (hid : s.this.get (cls.mappingOf s.this).keyName = some id)
    (hcoh : w.CoherentAt cls s.this.splitSuffix id) :
    KeepsAt cls s.this.splitSuffix id ((tree (update cls) s).run (E.serve fault) w) ↔
      ¬Strands fault w cls s.this id := by
  have hupdater : (updater cls s.this).pdoValues = [] := pdoValues_writer s.this
  rw [tree_update (key_ne_none hst) hid]
  by_cases hcache : cls.cacheEnable = true
  · rw [if_pos hcache, run_attempt, Engine.serve]
    cases hset : fault (.cacheSet (cls.getObjKey (some id)) s.this (s.this.get "cache_expire")) with
    | some err =>
      -- the cache raised: nothing has happened yet
      refine iff_of_true (fun _ => hcoh) ?_
      intro hparts
      obtain ⟨-, hnone, -⟩ := hparts
      rw [hset] at hnone
      cases hnone
    | none =>
      show KeepsAt _ _ _ ((sendsOwn s (updater cls s.this) .update).run (E.serve fault)
        (w.put cls id s.this)) ↔ _
      obtain ⟨hrefused, herror, hworld⟩ | ⟨hrefused, n, hok⟩ :=
        run_sendsOwn (s := s) (w := w.put cls id s.this) hbegin hupdater .update
      · rw [refused_put] at hrefused
        have hat : (w.put cls id s.this).CoherentAt cls s.this.splitSuffix id ↔
            ∃ r, w.rowOf cls s.this.splitSuffix id = some r ∧ cls.Shows s.this.splitSuffix s.this r :=
          World.coherentAt_some (w.cached_put_self id s.this)
        unfold KeepsAt Strands
        rw [hworld, hat]
        constructor
        · intro hkeeps hstrands
          exact hstrands.2.2.2 (hkeeps herror)
        · intro hnot _
          by_contra hshows
          exact hnot ⟨hcache, hset, hrefused, hshows⟩
      · rw [refused_put] at hrefused
        refine iff_of_true (keepsAt_ok hok) ?_
        intro hparts
        obtain ⟨-, -, hraises, -⟩ := hparts
        exact hrefused hraises
  · rw [if_neg hcache]
    refine iff_of_true ?_ fun hstrands => hcache hstrands.1
    obtain ⟨-, -, hworld⟩ | ⟨-, n, hok⟩ := run_sendsOwn (s := s) (w := w) hbegin hupdater .update
    · intro _
      rw [hworld]
      exact hcoh
    · exact keepsAt_ok hok

theorem keepsAt_delete (hst : cls.Stored E s.this.splitSuffix)
    (hbegin : ∀ con, fault (.beginTransaction con) = none)
    (hid : s.this.get (cls.mappingOf s.this).keyName = some id)
    (hcoh : w.CoherentAt cls s.this.splitSuffix id) :
    KeepsAt cls s.this.splitSuffix id ((tree (delete cls) s).run (E.serve fault) w) := by
  -- the statement leaves the world it meets, or goes through
  have hown : ∀ w₀ : World E, w₀.CoherentAt cls s.this.splitSuffix id →
      KeepsAt cls s.this.splitSuffix id
        ((sendsOwn s (deleter cls s.this) .delete).run (E.serve fault) w₀) := by
    intro w₀ hcoh₀
    obtain ⟨-, -, hworld⟩ | ⟨-, n, hok⟩ :=
      run_sendsOwn (s := s) (w := w₀) (a := deleter cls s.this) hbegin rfl .delete
    · intro _
      rw [hworld]
      exact hcoh₀
    · exact keepsAt_ok hok
  rw [tree_delete (key_ne_none hst) hid]
  by_cases hcache : cls.cacheEnable = true
  · rw [if_pos hcache, run_attempt, Engine.serve]
    cases fault (.cacheDelete (cls.getObjKey (some id))) with
    | some err => exact fun _ => hcoh
    | none => exact hown (w.drop cls id) (World.coherentAt_of_none (w.cached_drop_self id))
  · rw [if_neg hcache]
    exact hown w hcoh

/-- The last step of an insert either caches its object and is done, or changes
    nothing. -/
theorem keepsAt_stores {suffix : String} (hcoh : w.CoherentAt cls suffix id) (rs : Nat) (new : Val V) :
    KeepsAt cls suffix id ((stores cls s rs new).run (E.serve fault) w) := by
  unfold stores
  cases cls.enableCache with
  | false => exact fun _ => hcoh
  | true =>
    cases new with
    | none => exact fun _ => hcoh
    | some new =>
      simp only [if_true]
      rw [run_attempt, Engine.serve]
      split
      · next heq =>
        split at heq
        · cases heq
        · exact keepsAt_ok rfl
      · next heq =>
        split at heq
        · cases heq
          exact fun _ => hcoh
        · cases heq

/-- An insert keeps the cache out of it until its statement went through. -/
theorem keepsAt_insert (hst : cls.Stored E s.this.splitSuffix)
    (hbegin : ∀ con, fault (.beginTransaction con) = none)
    (hcoh : w.CoherentAt cls s.this.splitSuffix id) :
    KeepsAt cls s.this.splitSuffix id ((tree (insert cls) s).run (E.serve fault) w) := by
  rw [tree_insert hst]
  simp only
  rw [run_sends hbegin (pdoValues_writer s.this)]
  cases fault (.execute ((writer cls s.this).prepare (.insert "insert")).pdoName
    (((writer cls s.this).prepare (.insert "insert")).sent (.insert "insert"))) with
  | some err => exact fun _ => hcoh
  | none =>
    cases hexecute : E.execute w ((writer cls s.this).stmt (.insert "insert")) with
    | mk r w₁ =>
      cases r with
      | error err =>
        have hw : w₁ = w := Engine.execute_error hexecute
        subst hw
        exact fun _ => hcoh
      | ok f =>
        obtain ⟨new, hlast, hcached, -, hfree, hrows⟩ := execute_writer hexecute
        -- the new row has a key of its own: the old one is as it was
        have hcoh₁ : w₁.CoherentAt cls s.this.splitSuffix id := by
          have hcached₁ : w₁.cached cls id = w.cached cls id := by
            rw [World.cached, hcached]
            rfl
          by_cases hnew : id = new
          · subst hnew
            refine World.coherentAt_of_none (hcached₁.trans ?_)
            by_contra hsome
            obtain ⟨o, ho⟩ := Option.ne_none_iff_exists'.mp hsome
            obtain ⟨r, hr, -⟩ := hcoh o ho
            rw [hfree] at hr
            cases hr
          · exact (World.coherentAt_congr hcached₁ ((hrows id).trans (if_neg hnew))).mpr hcoh
        simp only
        rw [run_attempt, Engine.serve]
        cases fault (.lastInsertId ((writer cls s.this).prepare (.insert "insert")).pdoName) with
        | some err => exact fun _ => hcoh₁
        | none => exact keepsAt_stores hcoh₁ f.rowCount w₁.lastId

end DataObject

/-! Writes. -/

/-- A call that writes the row of a loaded object. -/
inductive Write (V : Type) where
  | save (data : List (String × Val V))
  | delete

namespace Write

def method (cls : ModelClass V) : Write V → ObjM V Nat
  | .save data => DataObject.save cls data
  | .delete => DataObject.delete cls

/-- What it sets leaves the suffix alone. -/
def Fits : Write V → Prop
  | .save data => "splitSuffix" ∉ assocKeys data
  | .delete => True

/-- A save that updates, caches the object and then has its statement refused,
    while the row is not what it cached. -/
def Strands (fault : Eff V → Option PhpException) (w : World E) (cls : ModelClass V) (o : Obj V)
    (id : V) : Write V → Prop
  | .save data => (DataObject.saved cls data o).1 = .ok () ∧ DataObject.inserts cls data o = false ∧
      DataObject.Strands fault w cls (DataObject.saved cls data o).2 id
  | .delete => False

/-- Wherever a save or a delete raises, the key stays as coherent as it was,
    unless an update's statement is refused after its object was cached. -/
theorem failed_write_coherent_iff {cls : ModelClass V} {fault : Eff V → Option PhpException} {o : Obj V}
    {w : World E} {id : V} (hst : cls.Stored E o.splitSuffix)
    (hbegin : ∀ con, fault (.beginTransaction con) = none)
    (hid : o.get (cls.mappingOf o).keyName = some id) (st : Statics) (x : Write V) (hfits : x.Fits)
    (hcoh : w.CoherentAt cls o.splitSuffix id) :
    ((∃ e, (exec (E.serve fault) (x.method cls) ⟨o, st⟩ w).1 = .error e) →
        (exec (E.serve fault) (x.method cls) ⟨o, st⟩ w).2.2.CoherentAt cls o.splitSuffix id) ↔
      ¬x.Strands fault w cls o id := by
  show DataObject.KeepsAt cls o.splitSuffix id ((tree (x.method cls) ⟨o, st⟩).run (E.serve fault) w) ↔ _
  cases x with
  | delete =>
    exact iff_of_true (DataObject.keepsAt_delete (s := ⟨o, st⟩) hst hbegin hid hcoh) fun h => h
  | save data =>
    have hsuffix : (DataObject.saved cls data o).2.splitSuffix = o.splitSuffix :=
      DataObject.splitSuffix_saved hfits o
    have hid' : (DataObject.saved cls data o).2.get
        (cls.mappingOf (DataObject.saved cls data o).2).keyName = some id := by
      rw [DataObject.key_saved hfits, hid]
    have hst' : cls.Stored E (DataObject.saved cls data o).2.splitSuffix := by
      rw [hsuffix]
      exact hst
    have hcoh' : w.CoherentAt cls (DataObject.saved cls data o).2.splitSuffix id := by
      rw [hsuffix]
      exact hcoh
    rw [method, DataObject.tree_save hst hfits, ← hsuffix]
    cases hok : (DataObject.saved cls data o).1 with
    | error e =>
      -- nothing is sent, so nothing is left behind
      refine iff_of_true (fun _ => hcoh') ?_
      intro hparts
      obtain ⟨hassigned, -⟩ := hparts
      rw [hok] at hassigned
      cases hassigned
    | ok u =>
      simp only
      by_cases hins : DataObject.inserts cls data o = true
      · rw [if_pos hins]
        refine iff_of_true (DataObject.keepsAt_insert (s := ⟨(DataObject.saved cls data o).2, st⟩) hst'
          hbegin hcoh') ?_
        intro hparts
        obtain ⟨-, hupdates, -⟩ := hparts
        rw [hins] at hupdates
        cases hupdates
      · have hupdate := DataObject.keepsAt_update_iff (s := ⟨(DataObject.saved cls data o).2, st⟩) hst'
          hbegin hid' hcoh'
        rw [if_neg hins, hupdate]
        refine not_congr ⟨fun h => ⟨hok, ?_, h⟩, fun h => h.2.2⟩
        simpa using hins

end Write

end

/-! Users. -/

namespace Write

def goneAway : PhpException :=
  { message := "SQLSTATE[HY000]: General error: 2006 MySQL server has gone away", code := "HY000" }

/-- Every statement raises, and nothing else does. -/
def serverGone {V : Type} : Eff V → Option PhpException
  | .execute _ _ => some goneAway
  | _ => none

/-- A delete whose statement raises. -/
theorem failed_delete_coherent :
    (exec (userEngine.serve serverGone) ((delete : Write String).method userClass) ⟨ann, {}⟩
        (annWorld [("User:7", ann)])).1 = .error goneAway ∧
      (exec (userEngine.serve serverGone) ((delete : Write String).method userClass) ⟨ann, {}⟩
        (annWorld [("User:7", ann)])).2.2.CoherentAt userClass "" "7" := by
  have hraised : (exec (userEngine.serve serverGone) ((delete : Write String).method userClass)
      ⟨ann, {}⟩ (annWorld [("User:7", ann)])).1 = .error goneAway := by decide
  refine ⟨hraised, ?_⟩
  exact (failed_write_coherent_iff userClass_stored (fun _ => rfl) (by decide) {} delete trivial
    (by decide)).mpr (fun h => h) ⟨goneAway, hraised⟩

/-- An update whose statement raises: the cache has the new name, the table the old. -/
theorem failed_update_incoherent :
    (annWorld [("User:7", ann)]).CoherentAt userClass "" "7" ∧
      (exec (userEngine.serve serverGone) ((save [("name", some "bob")]).method userClass) ⟨ann, {}⟩
        (annWorld [("User:7", ann)])).1 = .error goneAway ∧
      ¬(exec (userEngine.serve serverGone) ((save [("name", some "bob")]).method userClass) ⟨ann, {}⟩
        (annWorld [("User:7", ann)])).2.2.CoherentAt userClass "" "7" :=
  ⟨by decide, by decide, by decide⟩

end Write

end RubbishStore.Pdo
