import RubbishStore.Pdo.ArrayLayer

/- Which server a call on the layer reaches. The connection is named when the
   statement is sent, from `read_only` and from `self::$dbSplit`, which is one field
   for all classes and which no call resets: a call that gives no `$dbSplit` goes to
   the server of the last call that gave one, of whatever class. -/
namespace RubbishStore.Pdo
open RubbishStore.Lib
open Method

section
variable {V : Type}

/-- The connection that a statement is sent on. -/
def Eff.server : Eff V → Option String
  | .execute con _ | .executeNative con _ _ => some con
  | .beginTransaction _ | .commit _ | .rollBack _ | .lastInsertId _ | .cacheGet _ | .cacheGetMulti _
  | .cacheSet _ _ _ | .cacheDelete _ => none

/-- If it is a statement, it is sent on `con`. -/
def OnServer (con : String) (e : Eff V) : Prop := ∀ con', e.server = some con' → con' = con

theorem onServer_of_none {con : String} {e : Eff V} (h : e.server = none) : OnServer con e := by
  intro con' hcon'
  rw [h] at hcon'
  cases hcon'

namespace MysqlAccessor

/-- The class and the flags that name the connection. -/
def Flags (cls : ModelClass V) (readOnly forceMaster : Bool) (s : Self V) : Prop :=
  s.this.model = cls ∧ s.this.readOnly = readOnly ∧ s.this.masterForced = forceMaster

section
variable {cls : ModelClass V} {r f : Bool} {con : String}

theorem asks_getConnection (name : String) :
    Asks (Flags cls r f) (OnServer con) (getConnection name) fun _ => Flags cls r f := by
  refine asks_get_bind fun s hs => asks_ite (fun _ => asks_pure fun s' hs' => hs' ▸ hs) fun _ => ?_
  have hbegin : OnServer con (Eff.beginTransaction name : Eff V) := onServer_of_none rfl
  have hpool : Asks (fun s' => s' = s) (OnServer con) (Method.modify fun s =>
      { s with statics := { s.statics with connections := s.statics.connections ++ [name] } } : AccM V Unit)
      fun _ => Flags cls r f := asks_modify fun s' hs' => hs' ▸ hs
  exact asks_ite (fun _ => asks_bind (asks_perform hbegin fun _ _ hs' => hs') fun _ => hpool) fun _ => hpool

theorem asks_connect :
    Asks (Flags cls r f) (OnServer con) connect fun name _ => name = cls.getPdoName r f := by
  refine asks_get_bind fun s hs => asks_bind ((asks_getConnection _).mono (fun s' hs' => hs' ▸ hs) fun _ _ h => h) fun _ => ?_
  refine asks_bind (asks_modify (J := fun _ _ => True) fun _ _ => trivial) fun _ => asks_pure fun _ _ => ?_
  obtain ⟨hmodel, hread, hforce⟩ := hs
  rw [Accessor.pdoName, hmodel, hread, hforce]

theorem asks_executeInternal (t : Terminal) :
    Asks (Flags cls r f) (OnServer (cls.getPdoName r f)) (executeInternal t) fun _ _ => True := by
  refine asks_bind asks_connect fun name => asks_get_bind fun s hname => ?_
  refine asks_perform ?_ fun _ _ _ => trivial
  rintro con ⟨rfl⟩
  exact hname

/-- A write leaves `read_only` as it finds it. -/
theorem asks_executeWrite {t : Terminal} (ht : t.writes = true) :
    Asks (Flags cls r f) (OnServer (cls.getPdoName r f)) (executeWrite t) fun _ _ => True := by
  have hflags : ∀ s : Self V, Flags cls r f s → Flags cls r f { s with this := s.this.prepare t } := by
    have hfind : ¬ t = .findAll := by
      rintro rfl
      cases ht
    intro s hs
    rw [Accessor.prepare_eq, if_neg hfind]
    exact hs
  exact asks_bind (asks_modify hflags) fun _ => asks_bind (asks_executeInternal t) fun _ => asks_pure fun _ _ => trivial

theorem asks_nativeSql (sql : String) (values : List (Val V)) (readOnly : Bool) :
    Asks (Flags cls r f) (OnServer (cls.getPdoName readOnly f)) (nativeSql sql values readOnly) fun _ _ => True := by
  refine asks_bind (asks_modify (J := fun _ => Flags cls readOnly f) fun s hs => ⟨hs.1, rfl, hs.2.2⟩) fun _ => ?_
  refine asks_bind asks_connect fun name => asks_bind (J := fun _ _ => True) (fun s hname => ?_) fun _ => asks_pure fun _ _ => trivial
  refine ⟨?_, fun _ _ _ => trivial⟩
  rintro con ⟨rfl⟩
  exact hname

variable [PhpScalar V]

theorem asks_initObjs (rs : List (FetchRow V)) :
    Asks (fun _ => True) (OnServer con) (initObjs rs) fun _ _ => True := by
  induction rs with
  | nil => exact asks_pure fun _ _ => trivial
  | cons row rs ih =>
    refine asks_get_bind fun s _ => asks_bind (J := fun _ _ => True) (asks_lift fun _ _ _ _ => trivial) fun obj => ?_
    refine asks_bind (J := fun _ _ => True) (asks_modify fun _ _ => trivial) fun _ => ?_
    exact asks_bind ih fun objs => asks_pure fun _ _ => trivial

theorem asks_findAll : Asks (Flags cls r f) (OnServer (cls.getPdoName true f)) findAll fun _ _ => True := by
  have hflags : ∀ s : Self V, Flags cls r f s → Flags cls true f { s with this := s.this.prepare .findAll } := by
    intro s hs
    rw [Accessor.prepare_eq, if_pos rfl]
    exact ⟨hs.1, rfl, hs.2.2⟩
  refine asks_bind (J := fun _ _ => True) ?_ fun st => asks_initObjs st.rows
  exact asks_bind (asks_modify hflags) fun _ => asks_executeInternal .findAll

theorem asks_findOnly : Asks (Flags cls r f) (OnServer (cls.getPdoName true f)) findOnly fun _ _ => True := by
  refine asks_bind (asks_modify (J := fun _ => Flags cls r f) fun _ hs => hs) fun _ => ?_
  exact asks_bind asks_findAll fun _ => asks_pure fun _ _ => trivial

end

end MysqlAccessor

namespace DataObject
variable [PhpScalar V] {cls : ModelClass V} {con : String}

theorem asks_getPrimaryKey {I : ObjSelf V → Prop} {P : Eff V → Prop} : Asks I P (getPrimaryKey cls) fun _ _ => True := by
  refine asks_get_bind fun s _ => ?_
  cases s.this.get (cls.mappingOf s.this).keyName with
  | none => exact asks_throw _
  | some id => exact asks_pure fun _ _ => trivial

theorem asks_cacheUpdate : Asks (fun _ => True) (OnServer con) (cacheUpdate cls) fun _ _ => True := by
  refine asks_bind asks_getPrimaryKey fun id => asks_get_bind fun s _ => ?_
  exact asks_perform (onServer_of_none rfl) fun _ _ _ => trivial

/-- A fresh accessor has its class, and neither flag. -/
def Unflagged (cls : ModelClass V) (a : Accessor V) : Prop := ∀ st, MysqlAccessor.Flags cls false false ⟨a, st⟩

omit [PhpScalar V] in
theorem asks_useModel (cls : ModelClass V) (con suffix : String) :
    Asks (fun _ => True) (OnServer con) (MysqlAccessor.useModel cls suffix) fun a _ => Unflagged cls a := by
  refine asks_bind (J := fun _ _ => True) (asks_modify fun _ _ => trivial) fun _ => asks_get_bind fun st _ => ?_
  exact asks_ite (fun _ => asks_throw _) fun _ => asks_pure fun _ _ _ => ⟨rfl, rfl, rfl⟩

theorem asks_getAccessor :
    Asks (fun _ => True) (OnServer con) (getAccessor cls) fun a _ => Unflagged cls a := by
  refine asks_get_bind fun s _ => ?_
  have huse := asks_on ObjSelf.statics (fun (s : ObjSelf V) st => { s with statics := st })
    (I := fun _ => True) (J := fun r _ => Unflagged cls r.1) (fun _ _ => trivial)
    (asks_useModel cls con s.this.splitSuffix) fun _ _ _ _ h => h
  exact asks_bind (huse.mono (fun _ _ => trivial) fun _ _ h => h) fun r => asks_pure fun _ h => h

omit [PhpScalar V] in
theorem asks_onAccessor {α : Type} {a : Accessor V} {m : AccM V α} {r f : Bool} {P : Eff V → Prop} {I : ObjSelf V → Prop}
    (ha : ∀ st, MysqlAccessor.Flags cls r f ⟨a, st⟩) (hm : Asks (MysqlAccessor.Flags cls r f) P m fun _ _ => True) :
    Asks I P (onAccessor a m) fun _ _ => True := by
  refine asks_bind (J := fun _ _ => True) ?_ fun _ => asks_pure fun _ _ => trivial
  exact asks_on _ _ (fun s _ => ha s.statics) hm fun _ _ _ _ _ => trivial

/-- The fields that are set leave the flags alone. -/
theorem unflagged_setFields {a : Accessor V} (o : Obj V) (ha : Unflagged cls a) : Unflagged cls (setFields cls o a) := by
  unfold setFields
  induction (cls.mappingOf o).properties generalizing a with
  | nil => exact ha
  | cons p ps ih =>
    rw [List.foldl_cons]
    refine ih fun st => ?_
    cases o.get p <;> exact ha st

theorem asks_insert : Asks (fun _ => True) (OnServer (cls.getPdoName false false)) (insert cls) fun _ _ => True := by
  refine asks_bind asks_getAccessor fun a => asks_get_bind fun s ha => ?_
  refine asks_bind (asks_onAccessor (unflagged_setFields s.this ha) (MysqlAccessor.asks_executeWrite rfl)) fun r => ?_
  refine asks_bind (asks_perform (J := fun _ _ => True) (onServer_of_none rfl) fun _ _ _ => trivial) fun id => ?_
  refine asks_bind (asks_lift (J := fun _ _ => True) fun _ _ _ _ => trivial) fun o => ?_
  refine asks_bind (asks_modify (J := fun _ _ => True) fun _ _ => trivial) fun _ => ?_
  exact asks_ite (fun _ => asks_bind asks_cacheUpdate fun _ => asks_pure fun _ _ => trivial)
    fun _ => asks_pure fun _ _ => trivial

theorem asks_update : Asks (fun _ => True) (OnServer (cls.getPdoName false false)) (update cls) fun _ _ => True := by
  have hown : Asks (fun _ => True) (OnServer (cls.getPdoName false false))
      (onOwnRow cls (setFields cls) MysqlAccessor.update) fun _ _ => True := by
    refine asks_bind asks_getAccessor fun a => asks_get_bind fun s ha => ?_
    refine asks_bind asks_getPrimaryKey fun id => ?_
    refine asks_bind (asks_lift (J := fun a _ => Unflagged cls a) ?_) fun a' => fun s' ha' => ?_
    · rintro _ _ - ⟨rfl⟩
      exact unflagged_setFields s.this ha
    · have hwrite := asks_onAccessor (I := fun _ => True) ha' (MysqlAccessor.asks_executeWrite (t := .update) rfl)
      exact asks_bind hwrite (fun _ => asks_pure fun _ _ => trivial) s' trivial
  exact asks_ite (fun _ => asks_bind asks_cacheUpdate fun _ => hown) fun _ => hown

/-- Whatever it writes, `save` sends it to the master. -/
theorem asks_save (data : List (String × Val V)) :
    Asks (fun _ => True) (OnServer (cls.getPdoName false false)) (save cls data) fun _ _ => True := by
  refine asks_get_bind fun s _ => ?_
  refine asks_bind (asks_modify (J := fun _ _ => True) fun _ _ => trivial) fun _ => ?_
  refine asks_bind (asks_lift (J := fun _ _ => True) fun _ _ _ _ => trivial) fun _ => asks_get_bind fun s _ => ?_
  refine asks_ite (fun _ => ?_) fun _ => asks_insert.mono (fun _ _ => trivial) fun _ _ h => h
  refine asks_bind (asks_lift (J := fun _ _ => True) fun _ _ _ _ => trivial) fun value => ?_
  exact asks_ite (fun _ => asks_insert) fun _ => asks_update

end DataObject

namespace ArrayLayer
open DataObject (Unflagged)

/-- `self::$dbSplit` after one that is given, or not. -/
def afterSplit (d dbSplit : String) : String := if missingSuffix dbSplit then d else dbSplit

section
variable {cls : LayerClass V} {d con : String} {r f : Bool}

theorem asks_setDbSplit (dbSplit : String) :
    Asks (fun s => s.dbSplit = d) (OnServer (V := V) con) (setDbSplit dbSplit) fun _ s => s.dbSplit = afterSplit d dbSplit := by
  refine asks_modify fun s hs => ?_
  rw [afterSplit, ← hs]
  split <;> rfl

theorem asks_dataAccess (suffix : String) :
    Asks (fun s => s.dbSplit = d) (OnServer con) (dataAccess cls suffix) fun a s =>
      Unflagged (cls.under d) a ∧ s.dbSplit = d := by
  refine asks_get_bind fun s hs => ?_
  subst hs
  have huse := asks_on LayerStatics.statics (fun (s : LayerStatics) st => { s with statics := st })
    (I := fun s' => s'.dbSplit = s.dbSplit) (J := fun r s' => Unflagged (cls.under s.dbSplit) r.1 ∧ s'.dbSplit = s.dbSplit)
    (fun _ _ => trivial) (DataObject.asks_useModel _ con suffix) fun _ _ _ hs ha => ⟨ha, hs⟩
  exact asks_bind (huse.mono (fun s' hs => congrArg LayerStatics.dbSplit hs) fun _ _ h => h) fun r => asks_pure fun _ h => h

theorem asks_onAccessor {α : Type} {a : Accessor V} {m : AccM V α} {P : Eff V → Prop} {I : LayerStatics → Prop}
    (ha : Unflagged (cls.under d) a) (hm : Asks (MysqlAccessor.Flags (cls.under d) false false) P m fun _ _ => True) :
    Asks I P (onAccessor a m) fun _ _ => True := by
  refine asks_bind (J := fun _ _ => True) ?_ fun _ => asks_pure fun _ _ => trivial
  exact asks_on _ _ (fun s _ => ha s.statics) hm fun _ _ _ _ _ => trivial

theorem unflagged_foldl {α : Type} {cls : ModelClass V} (step : Accessor V → α → Accessor V)
    (hstep : ∀ a x, Unflagged cls a → Unflagged cls (step a x)) (xs : List α) {a : Accessor V} (ha : Unflagged cls a) :
    Unflagged cls (xs.foldl step a) := by
  induction xs generalizing a with
  | nil => exact ha
  | cons x xs ih => exact ih (hstep a x ha)

theorem unflagged_fetching {cls : ModelClass V} {a : Accessor V} (data : List (String × String × Operand V))
    (order : List (String × String)) (limit limitStart : Nat) (ha : Unflagged cls a) :
    Unflagged cls (fetching data order limit limitStart a) := by
  have hdata := unflagged_foldl (fun a row => a.filterByOp row.1 row.2.1 row.2.2) (fun _ _ h => h) data ha
  have horder := unflagged_foldl (fun a (row : String × String) => a.sort row.1 row.2) (fun _ _ h => h) order hdata
  unfold fetching
  by_cases hstart : limitStart = 0 <;> by_cases hlimit : limit = 0 <;> simp only [hstart, hlimit, if_true, if_false] <;>
    exact horder

theorem unflagged_filter {cls : ModelClass V} {a a' : Accessor V} {name : String} {value : Operand V} (ha : Unflagged cls a)
    (h : a.filter name value = .ok a') : Unflagged cls a' := by
  unfold Accessor.filter at h
  split at h
  · cases h
  · cases h
    exact ha
  · cases h
    exact ha

theorem unflagged_filterEach {cls : ModelClass V} {a a' : Accessor V} {filterData : List (String × Operand V)}
    (ha : Unflagged cls a) (h : filterEach filterData a = .ok a') : Unflagged cls a' := by
  induction filterData generalizing a with
  | nil =>
    cases h
    exact ha
  | cons row filterData ih =>
    cases hfilter : a.filter row.1 row.2 with
    | error e =>
      rw [filterEach, hfilter] at h
      cases h
    | ok a₁ =>
      rw [filterEach, hfilter] at h
      exact ih (unflagged_filter ha hfilter) h

theorem asks_updateLayer (filterData : List (String × Operand V)) (updateData : List (String × Val V)) (primaryId : Operand V)
    (pre dbSplit : String) :
    Asks (fun s => s.dbSplit = d) (OnServer ((cls.under (afterSplit d dbSplit)).getPdoName false false))
      (updateLayer cls filterData updateData primaryId pre dbSplit) fun _ _ => True := by
  refine asks_bind (asks_setDbSplit dbSplit) fun _ => asks_bind (asks_dataAccess pre) fun a => ?_
  refine asks_bind (J := fun a _ => Unflagged (cls.under (afterSplit d dbSplit)) a) (asks_lift ?_) fun a => ?_
  · exact fun _ _ ha h => unflagged_filterEach ha.1 h
  refine asks_bind (J := fun a _ => Unflagged (cls.under (afterSplit d dbSplit)) a) (asks_lift ?_) fun a s ha => ?_
  · exact fun _ _ ha h => unflagged_filter ha h
  have hset := unflagged_foldl (fun a (row : String × Val V) => a.setField row.1 row.2) (fun _ _ h => h) updateData ha
  exact asks_onAccessor (I := fun _ => True) hset (MysqlAccessor.asks_executeWrite rfl) s trivial

theorem asks_nativeSqlLayer (sql : String) (value : List (Val V)) (readOnly : Bool) (pre dbSplit : String) :
    Asks (fun s => s.dbSplit = d) (OnServer ((cls.under (afterSplit d dbSplit)).getPdoName readOnly false))
      (nativeSqlLayer cls sql value readOnly pre dbSplit) fun _ _ => True := by
  refine asks_bind (asks_setDbSplit dbSplit) fun _ => asks_bind (asks_dataAccess pre) fun a s ha => ?_
  exact asks_onAccessor (I := fun _ => True) ha.1 (MysqlAccessor.asks_nativeSql sql value readOnly) s trivial

end

variable [PhpScalar V] {cls : LayerClass V} {d : String}

omit [PhpScalar V] in
/-- A find on the accessor of `baseFetchLayer`. -/
theorem asks_baseFetchLayer {α : Type} {m : AccM V α} (data : List (String × String × Operand V))
    (order : List (String × String)) (pre : String) (limit limitStart : Nat) (dbSplit : String)
    (hm : ∀ cls : ModelClass V, Asks (MysqlAccessor.Flags cls false false) (OnServer (cls.getPdoName true false)) m
      fun _ _ => True) :
    Asks (fun s => s.dbSplit = d) (OnServer ((cls.under (afterSplit d dbSplit)).getPdoName true false))
      (baseFetchLayer cls data order pre limit limitStart dbSplit >>= fun a => onAccessor a m) fun _ _ => True := by
  refine asks_bind (J := fun a _ => Unflagged (cls.under (afterSplit d dbSplit)) a) ?_ fun a s ha => ?_
  · refine asks_bind (asks_setDbSplit dbSplit) fun _ => asks_bind (asks_dataAccess (suffixOf pre)) fun a => asks_pure ?_
    exact fun _ ha => unflagged_fetching data order limit limitStart ha.1
  · exact asks_onAccessor (I := fun _ => True) ha (hm _) s trivial

theorem asks_insertLayer (data : List (String × Val V)) (pre dbSplit : String) :
    Asks (fun s => s.dbSplit = d) (OnServer ((cls.under (afterSplit d dbSplit)).getPdoName false false))
      (insertLayer cls data pre dbSplit) fun _ _ => True := by
  refine asks_bind (asks_setDbSplit dbSplit) fun _ => asks_get_bind fun s hs => ?_
  rw [← hs]
  refine asks_bind (asks_lift (J := fun _ _ => True) fun _ _ _ _ => trivial) fun model => ?_
  refine asks_bind (J := fun _ _ => True) ?_ fun r => asks_lift fun _ _ _ _ => trivial
  exact asks_on _ _ (fun _ _ => trivial) (DataObject.asks_save []) fun _ _ _ _ _ => trivial

theorem asks_method (c : LayerCall V) :
    Asks (fun s => s.dbSplit = d) (OnServer (c.server (afterSplit d c.dbSplit))) c.method fun _ _ => True := by
  obtain ⟨cls, op, pre, dbSplit⟩ := c
  cases op with
  | fetchOneLayer data order =>
    exact asks_bind (asks_baseFetchLayer data order pre 0 0 dbSplit fun _ => MysqlAccessor.asks_findOnly)
      fun _ => asks_pure fun _ _ => trivial
  | fetchLayer data order limit limitStart =>
    exact asks_bind (asks_baseFetchLayer data order pre limit limitStart dbSplit fun _ => MysqlAccessor.asks_findAll)
      fun _ => asks_pure fun _ _ => trivial
  | insertLayer data => exact asks_bind (asks_insertLayer data pre dbSplit) fun _ => asks_pure fun _ _ => trivial
  | updateLayer filterData updateData primaryId =>
    exact asks_bind (asks_updateLayer filterData updateData primaryId pre dbSplit) fun _ => asks_pure fun _ _ => trivial
  | nativeSqlLayer sql value readOnly =>
    exact asks_bind (asks_nativeSqlLayer sql value readOnly pre dbSplit) fun _ => asks_pure fun _ _ => trivial

/-! `self::$dbSplit` along a run. -/

/-- No part of a call but `setDbSplit` touches the field. -/
def SameSplit (s s' : LayerStatics) : Prop := s'.dbSplit = s.dbSplit

/-- Whatever the answers and whether it raises or not, the method leaves the field as `setDbSplit` does. -/
def EndsSplit {α : Type} (dbSplit : String) (m : LayerM V α) : Prop :=
  Keeps (fun s s' => s'.dbSplit = afterSplit s.dbSplit dbSplit) m

section
omit [PhpScalar V]
variable {α β : Type} {dbSplit : String}

theorem endsSplit_set : EndsSplit (V := V) dbSplit (setDbSplit dbSplit) := by
  refine keeps_modify fun s => ?_
  rw [afterSplit]
  split <;> rfl

theorem endsSplit_bind {m : LayerM V α} {f : α → LayerM V β} (hm : EndsSplit dbSplit m) (hf : ∀ a, Keeps SameSplit (f a)) :
    EndsSplit dbSplit (m >>= f) := by
  intro W h s w
  have hfirst := hm W h s w
  rw [exec_bind]
  generalize exec h m s w = r at hfirst ⊢
  obtain ⟨_ | a, s', w'⟩ := r
  · exact hfirst
  · exact (hf a W h s' w').trans hfirst

theorem sameSplit_bind {m : LayerM V α} {f : α → LayerM V β} (hm : Keeps SameSplit m) (hf : ∀ a, Keeps SameSplit (f a)) :
    Keeps SameSplit (m >>= f) := keeps_bind (K := SameSplit) (fun _ _ _ h h' => Eq.trans h' h) hm hf

theorem sameSplit_pure (a : α) : Keeps SameSplit (pure a : LayerM V α) :=
  keeps_pure (K := SameSplit) (fun _ => rfl) a

theorem sameSplit_lift (x : Except PhpException α) : Keeps SameSplit (Method.lift x : LayerM V α) :=
  keeps_lift (K := SameSplit) (fun _ => rfl) x

theorem sameSplit_get : Keeps SameSplit (Method.get : LayerM V LayerStatics) := keeps_get (K := SameSplit) fun _ => rfl

theorem sameSplit_on {τ : Type} (focus : LayerStatics → τ) (statics : τ → Statics) (m : Php V τ α) :
    Keeps SameSplit (Method.on focus (fun s t => { s with statics := statics t }) m) := by
  have hback : ∀ s t, SameSplit s { s with statics := statics t } := fun _ _ => rfl
  exact keeps_on hback m

theorem sameSplit_dataAccess (cls : LayerClass V) (suffix : String) : Keeps SameSplit (dataAccess cls suffix) :=
  sameSplit_bind sameSplit_get fun _ => sameSplit_bind (sameSplit_on _ _ _) fun _ => sameSplit_pure _

theorem sameSplit_onAccessor (a : Accessor V) (m : AccM V α) : Keeps SameSplit (onAccessor a m) :=
  sameSplit_bind (sameSplit_on _ _ _) fun _ => sameSplit_pure _

theorem endsSplit_baseFetchLayer (cls : LayerClass V) (data : List (String × String × Operand V))
    (order : List (String × String)) (pre : String) (limit limitStart : Nat) :
    EndsSplit dbSplit (baseFetchLayer cls data order pre limit limitStart dbSplit) :=
  endsSplit_bind endsSplit_set fun _ => sameSplit_bind (sameSplit_dataAccess _ _) fun _ => sameSplit_pure _

end

theorem endsSplit_method (c : LayerCall V) : EndsSplit c.dbSplit c.method := by
  obtain ⟨cls, op, pre, dbSplit⟩ := c
  cases op with
  | fetchOneLayer data order =>
    refine endsSplit_bind (endsSplit_bind ?_ fun _ => sameSplit_onAccessor _ _) fun _ => sameSplit_pure _
    exact endsSplit_baseFetchLayer cls data order pre 0 0
  | fetchLayer data order limit limitStart =>
    refine endsSplit_bind (endsSplit_bind ?_ fun _ => sameSplit_onAccessor _ _) fun _ => sameSplit_pure _
    exact endsSplit_baseFetchLayer cls data order pre limit limitStart
  | insertLayer data =>
    refine endsSplit_bind (endsSplit_bind endsSplit_set fun _ => ?_) fun _ => sameSplit_pure _
    refine sameSplit_bind sameSplit_get fun _ => sameSplit_bind (sameSplit_lift _) fun _ => ?_
    exact sameSplit_bind (sameSplit_on _ _ _) fun _ => sameSplit_lift _
  | updateLayer filterData updateData primaryId =>
    refine endsSplit_bind (endsSplit_bind endsSplit_set fun _ => ?_) fun _ => sameSplit_pure _
    refine sameSplit_bind (sameSplit_dataAccess _ _) fun _ => sameSplit_bind (sameSplit_lift _) fun _ => ?_
    exact sameSplit_bind (sameSplit_lift _) fun _ => sameSplit_onAccessor _ _
  | nativeSqlLayer sql value readOnly =>
    refine endsSplit_bind (endsSplit_bind endsSplit_set fun _ => ?_) fun _ => sameSplit_pure _
    exact sameSplit_bind (sameSplit_dataAccess _ _) fun _ => sameSplit_onAccessor _ _

/-- A process and the outside world, after the call. -/
def layerStep {W : Type} (h : Outside V W) (x : LayerStatics × W) (c : LayerCall V) : LayerStatics × W :=
  (exec h c.method x.1 x.2).2

theorem run_dbSplit {W : Type} (h : Outside V W) (x : LayerStatics × W) (calls : List (LayerCall V)) :
    (run (layerStep h) x calls).1.dbSplit = lastGiven x.1.dbSplit calls := by
  induction calls generalizing x with
  | nil => rfl
  | cons c calls ih =>
    have hstep : (layerStep h x c).1.dbSplit = afterSplit x.1.dbSplit c.dbSplit := endsSplit_method c W h x.1 x.2
    rw [run_cons, ih, hstep]
    rfl

/-- Whatever PDO and memcache answer, in a run of calls on any classes of the layer a statement is sent
    on the connection that its class names for the last `$dbSplit` given before it, or by the
    call itself, on any class. -/
theorem run_routed {W : Type} (h : Outside V W) (start : LayerStatics × W) (before : List (LayerCall V)) (c : LayerCall V)
    (e : Eff V) (he : e ∈ effects h c.method (run (layerStep h) start before).1 (run (layerStep h) start before).2) (con : String)
    (hcon : e.server = some con) : con = c.server (lastGiven start.1.dbSplit (before ++ [c])) := by
  have hsplit := run_dbSplit h start before
  have hasks := (asks_method (d := lastGiven start.1.dbSplit before) c).effects h hsplit
    (run (layerStep h) start before).2 e he con hcon
  rw [hasks, lastGiven, lastGiven, List.foldl_append]
  rfl

/-- Users and their houses on a shard, then users without one: the last call reads the shard of the houses. -/
theorem run_routed_houses :
    let users : LayerClass String := { model := userClass, getPdoSlaveName := fun d => "user_slave" ++ d }
    let houses : LayerClass String := { users with getPdoSlaveName := fun d => "house_slave" ++ d }
    let fetch (cls : LayerClass String) (dbSplit : String) : LayerCall String :=
      { cls := cls, op := .fetchLayer [] [] 0 0, dbSplit := dbSplit }
    let before := [fetch users "11", fetch houses "12"]
    let x := run (layerStep emptyOutside) ({}, ()) before
    (effects emptyOutside (fetch users "").method x.1 x.2).filterMap Eff.server = ["user_slave12"] ∧
      ∀ e ∈ effects emptyOutside (fetch users "").method x.1 x.2, ∀ con, e.server = some con → con = "user_slave12" := by
  intro users houses fetch before x
  exact ⟨by decide, run_routed emptyOutside ({}, ()) before (fetch users "")⟩

end ArrayLayer

end

end RubbishStore.Pdo
