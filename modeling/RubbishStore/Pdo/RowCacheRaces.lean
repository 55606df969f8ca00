import RubbishStore.Lib.Interleave
import RubbishStore.Pdo.RowCache

/- Clients that take turns on one key: `find_by_pk`, updates and deletes, one
   memcache call or one statement at a time. Nothing keeps them apart. A find
   stores what it has read, be the row still there or not; a write stores first
   and sends its statement later. The stages of a client say what its next call
   does (`Looks`, `Stores`, `Puts`, `Updates`, ...), and `Orderly` which client may
   go next for the cache to be coherent again when all of them are done. -/
namespace RubbishStore.Pdo
open RubbishStore.Lib
open Method

section
variable {V : Type}

/-- What is left of a call. -/
abbrev Rest (V α : Type) : Type := Prog (Eff V) (fun e => Except PhpException e.Ans) α

namespace Eff

def stores : Eff V → Bool
  | .cacheSet _ _ _ => true
  | _ => false

def sends : Eff V → Bool
  | .execute _ _ => true
  | _ => false

end Eff

section
variable [DecidableEq V] [PhpScalar V] (E : Engine V) (cls : ModelClass V) (suffix : String) (id : V)
  {α β : Type}

/-! The stages of a find. -/

/-- It has loaded the object, and stores it. -/
def Stores (o : Obj V) (p : Rest V α) : Prop :=
  p.next.any Eff.stores = true ∧
    ∀ w : World E, (p.advance E.answer w).1.Ends ∧ (p.advance E.answer w).2 = w.put cls id o

/-- It loads the row. -/
def Looks (p : Rest V α) : Prop :=
  p.next.any Eff.sends = true ∧
    ∀ w : World E, (p.advance E.answer w).2 = w ∧
      ((p.advance E.answer w).1.Ends ∨ ∃ o r, w.rowOf cls suffix id = some r ∧
        cls.Shows suffix o r ∧ Stores E cls id o (p.advance E.answer w).1)

/-- It asks the cache. -/
def Asks (p : Rest V α) : Prop :=
  p.next.any Eff.sends = false ∧ p.next.any Eff.stores = false ∧
    ∀ w : World E, (p.advance E.answer w).2 = w ∧
      ((p.advance E.answer w).1.Ends ∨ Looks E cls suffix id (p.advance E.answer w).1)

/-! The stages of an update. -/

/-- It sends its statement: the row shows the object if it takes its values. -/
def Updates (o : Obj V) (p : Rest V α) : Prop :=
  p.next.any Eff.sends = true ∧
    ∀ w : World E, (p.advance E.answer w).1.Ends ∧ (p.advance E.answer w).2.cache = w.cache ∧
      ∀ r, w.rowOf cls suffix id = some r → DataObject.KeptIn cls E o r →
        ∃ r', (p.advance E.answer w).2.rowOf cls suffix id = some r' ∧ cls.Shows suffix o r'

/-- It stores the object. -/
def Puts (o : Obj V) (p : Rest V α) : Prop :=
  p.next.any Eff.sends = false ∧
    ∀ w : World E, (p.advance E.answer w).2 = w.put cls id o ∧
      Updates E cls suffix id o (p.advance E.answer w).1

/-! The stages of a delete. -/

def Deletes (p : Rest V α) : Prop :=
  p.next.any Eff.sends = true ∧
    ∀ w : World E, (p.advance E.answer w).1.Ends ∧ (p.advance E.answer w).2.cache = w.cache

def Drops (p : Rest V α) : Prop :=
  p.next.any Eff.sends = false ∧
    ∀ w : World E, (p.advance E.answer w).2 = w.drop cls id ∧ Deletes E (p.advance E.answer w).1

variable {E cls suffix id} {o : Obj V} {p : Rest V α}

/-- A find stores one object. -/
theorem Stores.unique {o' : Obj V} (w : World E) (h : Stores E cls id o p)
    (h' : Stores E cls id o' p) : o = o' := by
  have hput : w.put cls id o = w.put cls id o' := (h.2 w).2.symm.trans (h'.2 w).2
  have hcached := congrArg (fun w' : World E => w'.cached cls id) hput
  simp only [World.cached_put_self] at hcached
  exact Option.some.inj hcached

/-! What a call returns does not matter. -/

theorem Stores.map (h : Stores E cls id o p) (f : α → β) : Stores E cls id o (p.map f) := by
  rw [Stores, Prog.next_map]
  refine ⟨h.1, fun w => ?_⟩
  rw [Prog.advance_map]
  exact ⟨(h.2 w).1.map f, (h.2 w).2⟩

theorem Looks.map (h : Looks E cls suffix id p) (f : α → β) : Looks E cls suffix id (p.map f) := by
  rw [Looks, Prog.next_map]
  refine ⟨h.1, fun w => ?_⟩
  rw [Prog.advance_map]
  obtain ⟨hworld, hrest⟩ := h.2 w
  refine ⟨hworld, hrest.imp (fun hends => hends.map f) ?_⟩
  intro hstores
  obtain ⟨o, r, hrow, hshows, hstores⟩ := hstores
  exact ⟨o, r, hrow, hshows, hstores.map f⟩

theorem Asks.map (h : Asks E cls suffix id p) (f : α → β) : Asks E cls suffix id (p.map f) := by
  rw [Asks, Prog.next_map]
  refine ⟨h.1, h.2.1, fun w => ?_⟩
  rw [Prog.advance_map]
  obtain ⟨hworld, hrest⟩ := h.2.2 w
  exact ⟨hworld, hrest.imp (fun hends => hends.map f) fun hlooks => hlooks.map f⟩

theorem Updates.map (h : Updates E cls suffix id o p) (f : α → β) :
    Updates E cls suffix id o (p.map f) := by
  rw [Updates, Prog.next_map]
  refine ⟨h.1, fun w => ?_⟩
  rw [Prog.advance_map]
  obtain ⟨hends, hcache, hrow⟩ := h.2 w
  exact ⟨hends.map f, hcache, hrow⟩

theorem Puts.map (h : Puts E cls suffix id o p) (f : α → β) : Puts E cls suffix id o (p.map f) := by
  rw [Puts, Prog.next_map]
  refine ⟨h.1, fun w => ?_⟩
  rw [Prog.advance_map]
  exact ⟨(h.2 w).1, (h.2 w).2.map f⟩

theorem Deletes.map (h : Deletes E p) (f : α → β) : Deletes E (p.map f) := by
  rw [Deletes, Prog.next_map]
  refine ⟨h.1, fun w => ?_⟩
  rw [Prog.advance_map]
  exact ⟨(h.2 w).1.map f, (h.2 w).2⟩

theorem Drops.map (h : Drops E cls id p) (f : α → β) : Drops E cls id (p.map f) := by
  rw [Drops, Prog.next_map]
  refine ⟨h.1, fun w => ?_⟩
  rw [Prog.advance_map]
  exact ⟨(h.2 w).1, (h.2 w).2.map f⟩

/-! The calls begin with these stages. -/

omit [DecidableEq V] [PhpScalar V] in
theorem advance_attempt {σ : Type} {W : Type} (h : Outside V W) (e : Eff V) (s : σ)
    (k : e.Ans → Steps V σ α) (w : W) :
    (attempt e s k).advance h w =
      match h e w with
      | (.ok a, w') => (k a, w')
      | (.error err, w') => (.ret (.error err, s), w') := by
  unfold attempt
  rw [Prog.advance]
  rcases h e w with ⟨_ | _, w'⟩ <;> rfl

theorem stores_attempt {σ : Type} (expire : Val V) (u : σ) (x : Except PhpException α × σ) :
    Stores E cls id o (attempt (Eff.cacheSet (cls.getObjKey (some id)) o expire) u fun _ => .ret x) := by
  refine ⟨rfl, fun w => ?_⟩
  rw [advance_attempt]
  exact ⟨⟨x, rfl⟩, rfl⟩

theorem looks_loadByPk (hst : cls.Stored E suffix) {st : Statics} {obj : Obj V}
    (hc : cls.construct st.splitSuffix = .ok obj) (hauto : st.autoCommit = true)
    (throwException : Bool) :
    Looks E cls suffix id
      (tree (MysqlAccessor.loadByPk id throwException) ⟨Accessor.fresh cls suffix, st⟩) := by
  rw [MysqlAccessor.tree_loadByPk hc, sends_autoCommit _ hauto]
  refine ⟨rfl, fun w => ?_⟩
  obtain ⟨n, hexecute⟩ := MysqlAccessor.execute_lookingFor hst st id w
  rw [advance_attempt, Engine.answer_execute rfl, hexecute]
  refine ⟨rfl, ?_⟩
  cases hrow : w.rowOf cls suffix id with
  | none =>
    left
    cases throwException with
    | true => exact ⟨_, rfl⟩
    | false => exact ⟨_, rfl⟩
  | some r =>
    have hshows := hst.shows_fill (a := Accessor.fresh cls suffix) rfl obj r
    have hkey : ((Accessor.fresh cls suffix).fill obj r).get (cls.getMapping suffix).keyName = some id := by
      rw [hst.shows_key hshows]
      exact (Table.row_eq_some.mp hrow).2
    show (if cls.cacheEnable then attempt (Eff.cacheSet (cls.getObjKey
      (((Accessor.fresh cls suffix).fill obj r).get (cls.getMapping suffix).keyName)) _ _) _ _
      else _ : Steps V (Self V) _).Ends ∨ _
    by_cases hcache : cls.cacheEnable = true
    · right
      refine ⟨_, r, rfl, hshows, ?_⟩
      show Stores E cls id _ (if cls.cacheEnable then attempt (Eff.cacheSet (cls.getObjKey
        (((Accessor.fresh cls suffix).fill obj r).get (cls.getMapping suffix).keyName)) _ _) _ _
        else _ : Steps V (Self V) _)
      rw [if_pos hcache, hkey]
      exact stores_attempt _ _ _
    · left
      rw [if_neg hcache]
      exact ⟨_, rfl⟩

theorem asks_findByPk (hst : cls.Stored E suffix) {st : Statics} {obj : Obj V}
    (hc : cls.construct st.splitSuffix = .ok obj) (hauto : st.autoCommit = true)
    (throwException : Bool) :
    Asks E cls suffix id
        (tree (MysqlAccessor.findByPk id throwException) ⟨Accessor.fresh cls suffix, st⟩) ∨
      Looks E cls suffix id
        (tree (MysqlAccessor.findByPk id throwException) ⟨Accessor.fresh cls suffix, st⟩) := by
  have hlooks : Looks E cls suffix id
      (tree (MysqlAccessor.loadByPk id throwException) ⟨Accessor.fresh cls suffix, st⟩) :=
    looks_loadByPk hst hc hauto throwException
  rw [MysqlAccessor.tree_findByPk]
  split
  case isTrue =>
    left
    refine ⟨rfl, rfl, fun w => ?_⟩
    rw [advance_attempt]
    simp only [Engine.answer]
    refine ⟨trivial, ?_⟩
    cases List.lookup ((Accessor.fresh cls suffix).model.getObjKey (some id)) w.cache with
    | some o => exact .inl ⟨_, rfl⟩
    | none => exact .inr hlooks
  case isFalse => exact .inr hlooks

theorem updates_sendsOwn {s : ObjSelf V} (hst : cls.Stored E s.this.splitSuffix)
    (hid : s.this.get (cls.mappingOf s.this).keyName = some id) (hauto : s.statics.autoCommit = true) :
    Updates E cls s.this.splitSuffix id s.this
      (DataObject.sendsOwn s (DataObject.updater cls s.this) .update) := by
  have hupdater : (DataObject.updater cls s.this).pdoValues = [] :=
    DataObject.pdoValues_writer s.this
  unfold DataObject.sendsOwn
  rw [sends_autoCommit _ (by exact hauto)]
  refine ⟨rfl, fun w => ?_⟩
  rw [advance_attempt, Engine.answer_execute hupdater]
  refine ⟨?_, ?_, ?_⟩
  · rcases E.execute w _ with ⟨_ | f, w'⟩
    · exact ⟨_, rfl⟩
    · exact ⟨_, rfl⟩
  · have hcache := Engine.cache_execute w ((DataObject.updater cls s.this).stmt .update)
    rcases hexecute : E.execute w ((DataObject.updater cls s.this).stmt .update) with ⟨_ | f, w'⟩
    · rw [hexecute] at hcache
      exact hcache
    · rw [hexecute] at hcache
      exact hcache
  · intro r hrow hkept
    -- the key is among the values that are stored as they are
    have hkey := hkept _ hst.key_mem
    change DataObject.Kept _ _ (s.this.get (cls.mappingOf s.this).keyName) at hkey
    rw [hid] at hkey
    obtain ⟨n, w', hexecute, -, hrows⟩ := DataObject.execute_updater (w := w) hst hid fun _ => hkey
    rw [hexecute]
    refine ⟨E.written (cls.mappingOf s.this).table (DataObject.sets cls s.this) r,
      (hrows id).trans ?_, ?_⟩
    · rw [if_pos rfl, hrow]
      rfl
    · exact (DataObject.shows_written_iff hst (Table.assocKeys_of_row hrow)).mpr hkept

theorem puts_save {s : ObjSelf V} (hst : cls.Stored E s.this.splitSuffix)
    (hcache : cls.cacheEnable = true) {data : List (String × Val V)}
    (hdata : "splitSuffix" ∉ assocKeys data) (hupdates : DataObject.inserts cls data s.this = false)
    (hid : s.this.get (cls.mappingOf s.this).keyName = some id) (hauto : s.statics.autoCommit = true) :
    Puts E cls s.this.splitSuffix id (DataObject.saved cls data s.this).2
        (tree (DataObject.save cls data) s) ∨
      (tree (DataObject.save cls data) s).Ends := by
  have hsuffix : (DataObject.saved cls data s.this).2.splitSuffix = s.this.splitSuffix :=
    DataObject.splitSuffix_saved hdata s.this
  have hst' : cls.Stored E (DataObject.saved cls data s.this).2.splitSuffix := by
    rw [hsuffix]
    exact hst
  have hid' : (DataObject.saved cls data s.this).2.get
      (cls.mappingOf (DataObject.saved cls data s.this).2).keyName = some id := by
    rw [DataObject.key_saved hdata]
    exact hid
  rw [DataObject.tree_save hst hdata]
  cases hok : (DataObject.saved cls data s.this).1 with
  | error e => exact .inr ⟨_, rfl⟩
  | ok u =>
    left
    simp only [hupdates, Bool.false_eq_true, if_false]
    rw [DataObject.tree_update (s := { s with this := (DataObject.saved cls data s.this).2 })
      (DataObject.key_ne_none hst') hid', if_pos hcache]
    refine ⟨rfl, fun w => ?_⟩
    rw [advance_attempt]
    refine ⟨rfl, ?_⟩
    have hupdate := updates_sendsOwn (s := { s with this := (DataObject.saved cls data s.this).2 })
      hst' hid' hauto
    rw [← hsuffix]
    exact hupdate

theorem drops_delete {s : ObjSelf V} (hst : cls.Stored E s.this.splitSuffix)
    (hcache : cls.cacheEnable = true)
    (hid : s.this.get (cls.mappingOf s.this).keyName = some id) (hauto : s.statics.autoCommit = true) :
    Drops E cls id (tree (DataObject.delete cls) s) := by
  rw [DataObject.tree_delete (DataObject.key_ne_none hst) hid, if_pos hcache]
  refine ⟨rfl, fun w => ?_⟩
  rw [advance_attempt]
  refine ⟨rfl, ?_⟩
  show Deletes E (DataObject.sendsOwn s (DataObject.deleter cls s.this) .delete)
  unfold DataObject.sendsOwn
  rw [sends_autoCommit _ (by exact hauto)]
  refine ⟨rfl, fun w' => ?_⟩
  rw [advance_attempt, Engine.answer_execute rfl]
  have hkept := Engine.cache_execute w' ((DataObject.deleter cls s.this).stmt .delete)
  rcases hexecute : E.execute w' ((DataObject.deleter cls s.this).stmt .delete) with ⟨_ | f, w''⟩
  · rw [hexecute] at hkept
    exact ⟨⟨_, rfl⟩, hkept⟩
  · rw [hexecute] at hkept
    exact ⟨⟨_, rfl⟩, hkept⟩

end

/-! Operations and their clients. -/

section
variable [PhpScalar V]

namespace Operation

/-- A find of the key, an update of its object or a delete of it. -/
def About (cls : ModelClass V) (suffix : String) (id : V) : Operation V → Prop
  | .findByPk id' _ => id' = id
  | .save o data => o.splitSuffix = suffix ∧ "splitSuffix" ∉ assocKeys data ∧
      DataObject.inserts cls data o = false ∧ o.get (cls.mappingOf o).keyName = some id
  | .delete o => o.splitSuffix = suffix ∧ o.get (cls.mappingOf o).keyName = some id
  | .create _ | .findByPks _ => False

instance [DecidableEq V] (cls : ModelClass V) (suffix : String) (id : V) :
    (op : Operation V) → Decidable (op.About cls suffix id)
  | .findByPk id' _ => inferInstanceAs (Decidable (id' = id))
  | .save _ _ => inferInstanceAs (Decidable (_ ∧ _ ∧ _ ∧ _))
  | .delete _ => inferInstanceAs (Decidable (_ ∧ _))
  | .create _ | .findByPks _ => .isFalse not_false

def writes : Operation V → Bool
  | .save _ _ | .delete _ => true
  | .create _ | .findByPk _ _ | .findByPks _ => false

/-- The object that the operation stores before its statement. -/
def puts (cls : ModelClass V) : Operation V → Option (Obj V)
  | .save o data => some (DataObject.saved cls data o).2
  | .delete _ | .create _ | .findByPk _ _ | .findByPks _ => none

end Operation

/-- An operation, and what is left of it. -/
abbrev Client (V : Type) : Type := Operation V × Rest V (Except PhpException Unit × Statics)

namespace Client

/-- A write that has seen to the cache, and not yet sent its statement. -/
def Pending (c : Client V) : Prop := c.1.writes = true ∧ c.2.next.any Eff.sends = true

/-- A find that has read the row, and not yet stored its object. -/
def Holding (c : Client V) : Prop := c.1.writes = false ∧ c.2.next.any Eff.stores = true

instance (c : Client V) : Decidable c.Pending := by
  unfold Pending
  infer_instance

instance (c : Client V) : Decidable c.Holding := by
  unfold Holding
  infer_instance

end Client

variable [DecidableEq V]

/-- The clients of a key around the world. -/
abbrev Clients (E : Engine V) : Type :=
  Pool (Operation V) (Eff V) (fun e => Except PhpException e.Ans) (Except PhpException Unit × Statics)
    (World E)

/-- The clients before their first calls, each with the static fields of its process. -/
def Clients.start {E : Engine V} (cls : ModelClass V) (suffix : String)
    (operations : List (Operation V × Statics)) (w : World E) : Clients E where
  clients := operations.map fun c => (c.1, tree (c.1.method cls suffix) c.2)
  world := w

namespace Clients
variable {E : Engine V}

def NoneUnderWay (s : Clients E) : Prop := ∀ d ∈ s.clients, ¬ Client.Pending d

def NoneHeld (s : Clients E) : Prop := ∀ d ∈ s.clients, ¬ Client.Holding d

/-- No write but that of client `i` is under way. -/
def LastUnderWay (s : Clients E) (i : Nat) : Prop :=
  ∀ j < s.clients.length, j ≠ i → ∀ d ∈ s.clients[j]?, ¬ Client.Pending d

instance (s : Clients E) : Decidable s.NoneUnderWay := by
  unfold NoneUnderWay
  infer_instance

instance (s : Clients E) : Decidable s.NoneHeld := by
  unfold NoneHeld
  infer_instance

instance (s : Clients E) (i : Nat) : Decidable (s.LastUnderWay i) := by
  unfold LastUnderWay
  infer_instance

end Clients

/-- Client `i` may go next. A find stores its object while no write is under way.
    A write sends its statement while no find holds an object; and while its own
    object is in the cache, as the last of the writes under way, to a row that
    takes the object's values. -/
def Orderly {E : Engine V} (cls : ModelClass V) (suffix : String) (id : V) (s : Clients E) (i : Nat) :
    Prop :=
  ∀ c ∈ s.clients[i]?,
    (Client.Holding c → s.NoneUnderWay) ∧
    (Client.Pending c → s.NoneHeld ∧
      ∀ o ∈ c.1.puts cls, s.world.cached cls id = some o →
        s.LastUnderWay i ∧ ∃ r ∈ s.world.rowOf cls suffix id, DataObject.KeptIn cls E o r)

instance {E : Engine V} (cls : ModelClass V) (suffix : String) (id : V) (s : Clients E) (i : Nat) :
    Decidable (Orderly cls suffix id s i) := by
  unfold Orderly
  infer_instance

/-- How far a client has come. -/
def Stage (E : Engine V) (cls : ModelClass V) (suffix : String) (id : V) (c : Client V) : Prop :=
  c.2.Ends ∨
    match c.1 with
    | .findByPk _ _ => Asks E cls suffix id c.2 ∨ Looks E cls suffix id c.2 ∨
        ∃ o, Stores E cls id o c.2
    | .save o data => Puts E cls suffix id (DataObject.saved cls data o).2 c.2 ∨
        Updates E cls suffix id (DataObject.saved cls data o).2 c.2
    | .delete _ => Drops E cls id c.2 ∨ Deletes E c.2
    | .create _ | .findByPks _ => False

section
variable {E : Engine V} {cls : ModelClass V} {suffix : String} {id : V}

omit [PhpScalar V] [DecidableEq V] in
/-- A method called for its effects. -/
theorem tree_on_unit {σ α : Type} (focus : Statics → σ) (back : Statics → σ → Statics)
    (m : Php V σ α) (st : Statics) :
    ∃ f, tree (do let _ ← Method.on focus back m; pure () : Php V Statics Unit) st =
      (tree m (focus st)).map f := by
  refine ⟨fun r => (r.1.map fun _ => (), back st r.2), ?_⟩
  rw [tree_bind, tree_on]
  refine (Prog.bind_map (fun r => (r.1.map (·, r.2), back st r.2)) (tree m (focus st)) _).trans ?_
  rw [Prog.map]
  congr 1
  funext r
  rcases r with ⟨_ | a, t⟩
  · rfl
  · rfl

omit [PhpScalar V] [DecidableEq V] in
theorem not_stores_of_sends {e : Option (Eff V)} (h : e.any Eff.sends = true) :
    e.any Eff.stores = false := by
  cases e with
  | none => rfl
  | some e => cases e <;> first | rfl | exact absurd h Bool.false_ne_true

section
variable {c : Client V}

omit [PhpScalar V] [DecidableEq V] in
theorem not_pending_of_reads (h : c.1.writes = false) : ¬ Client.Pending c := by
  intro hpending
  rw [Client.Pending, h] at hpending
  exact Bool.false_ne_true hpending.1

omit [PhpScalar V] [DecidableEq V] in
theorem not_holding_of_writes (h : c.1.writes = true) : ¬ Client.Holding c := by
  intro hholding
  rw [Client.Holding, h] at hholding
  exact Bool.noConfusion hholding.1

omit [PhpScalar V] [DecidableEq V] in
theorem not_pending_of_next (h : c.2.next.any Eff.sends = false) : ¬ Client.Pending c := by
  intro hpending
  rw [Client.Pending, h] at hpending
  exact Bool.false_ne_true hpending.2

omit [PhpScalar V] [DecidableEq V] in
theorem not_holding_of_next (h : c.2.next.any Eff.stores = false) : ¬ Client.Holding c := by
  intro hholding
  rw [Client.Holding, h] at hholding
  exact Bool.false_ne_true hholding.2

omit [PhpScalar V] [DecidableEq V] in
theorem not_pending_of_ends (h : c.2.Ends) : ¬ Client.Pending c :=
  not_pending_of_next (by rw [h.next]; rfl)

omit [PhpScalar V] [DecidableEq V] in
theorem not_holding_of_ends (h : c.2.Ends) : ¬ Client.Holding c :=
  not_holding_of_next (by rw [h.next]; rfl)

end

/-- At the first stage of its operation. -/
def Starts (E : Engine V) (cls : ModelClass V) (suffix : String) (id : V) (c : Client V) : Prop :=
  Stage E cls suffix id c ∧ ¬ Client.Pending c ∧ ¬ Client.Holding c

theorem starts_findByPk (hst : cls.Stored E suffix) {st : Statics} (hauto : st.autoCommit = true)
    (throwException : Bool) :
    Starts E cls suffix id (.findByPk id throwException,
      tree ((Operation.findByPk id throwException).method cls suffix) st) := by
  obtain ⟨obj, hc⟩ := hst.construct
  have hkey : (cls.getMapping suffix).key ≠ none := by
    rw [hst.key]
    exact Option.some_ne_none _
  -- `use_model` sets the static suffix, then the find runs on its fresh accessor
  obtain ⟨f, htree⟩ := tree_on_unit (fun st => (⟨Accessor.fresh cls suffix, st⟩ : Self V))
    (fun _ s => s.statics) (MysqlAccessor.findByPk id throwException)
    { st with splitSuffix := suffix }
  have hmethod : tree ((Operation.findByPk id throwException).method cls suffix) st =
      (tree (MysqlAccessor.findByPk id throwException)
        ⟨Accessor.fresh cls suffix, { st with splitSuffix := suffix }⟩).map f := by
    rw [← htree]
    show tree (MysqlAccessor.useModel cls suffix >>= _) st = _
    rw [tree_bind, DataObject.tree_useModel hkey]
    rfl
  have hc' : cls.construct ({ st with splitSuffix := suffix } : Statics).splitSuffix = .ok obj := hc
  have hauto' : ({ st with splitSuffix := suffix } : Statics).autoCommit = true := hauto
  rw [hmethod]
  refine ⟨.inr ?_, not_pending_of_reads rfl, ?_⟩
  · exact (asks_findByPk hst hc' hauto' throwException).imp (fun h => h.map f) fun h => .inl (h.map f)
  · apply not_holding_of_next
    rw [Prog.next_map]
    rcases asks_findByPk hst hc' hauto' throwException with hasks | hlooks
    · exact hasks.2.1
    · exact not_stores_of_sends hlooks.1

theorem starts_save {o : Obj V} (hst : cls.Stored E o.splitSuffix) (hcache : cls.cacheEnable = true)
    {data : List (String × Val V)} (hdata : "splitSuffix" ∉ assocKeys data)
    (hupdates : DataObject.inserts cls data o = false)
    (hid : o.get (cls.mappingOf o).keyName = some id) {st : Statics} (hauto : st.autoCommit = true) :
    Starts E cls o.splitSuffix id
      (.save o data, tree ((Operation.save o data).method cls o.splitSuffix) st) := by
  obtain ⟨f, htree⟩ := tree_on_unit (fun st => (⟨o, st⟩ : ObjSelf V)) (fun _ s => s.statics)
    (DataObject.save cls data) st
  have hmethod : tree ((Operation.save o data).method cls o.splitSuffix) st =
      (tree (DataObject.save cls data) ⟨o, st⟩).map f := htree
  rw [hmethod]
  rcases puts_save (s := ⟨o, st⟩) hst hcache hdata hupdates hid hauto with hputs | hends
  · refine ⟨.inr (.inl (hputs.map f)), not_pending_of_next ?_, not_holding_of_writes rfl⟩
    rw [Prog.next_map]
    exact hputs.1
  · -- an assignment has raised: the save does nothing
    exact ⟨.inl (hends.map f), not_pending_of_ends (hends.map f), not_holding_of_writes rfl⟩

theorem starts_delete {o : Obj V} (hst : cls.Stored E o.splitSuffix) (hcache : cls.cacheEnable = true)
    (hid : o.get (cls.mappingOf o).keyName = some id) {st : Statics} (hauto : st.autoCommit = true) :
    Starts E cls o.splitSuffix id
      (.delete o, tree ((Operation.delete o).method cls o.splitSuffix) st) := by
  obtain ⟨f, htree⟩ := tree_on_unit (fun st => (⟨o, st⟩ : ObjSelf V)) (fun _ s => s.statics)
    (DataObject.delete cls) st
  have hmethod : tree ((Operation.delete o).method cls o.splitSuffix) st =
      (tree (DataObject.delete cls) ⟨o, st⟩).map f := htree
  have hdrops : Drops E cls id (tree (DataObject.delete cls) ⟨o, st⟩) :=
    drops_delete (s := ⟨o, st⟩) hst hcache hid hauto
  rw [hmethod]
  refine ⟨.inr (.inl (hdrops.map f)), not_pending_of_next ?_, not_holding_of_writes rfl⟩
  rw [Prog.next_map]
  exact hdrops.1

theorem starts_method (hst : cls.Stored E suffix) (hcache : cls.cacheEnable = true)
    {op : Operation V} (hop : op.About cls suffix id) {st : Statics} (hauto : st.autoCommit = true) :
    Starts E cls suffix id (op, tree (op.method cls suffix) st) := by
  cases op with
  | create data => exact hop.elim
  | findByPks ids => exact hop.elim
  | findByPk id' throwException =>
    obtain rfl : id' = id := hop
    exact starts_findByPk hst hauto throwException
  | save o data =>
    obtain ⟨rfl, hdata, hupdates, hid⟩ := hop
    exact starts_save hst hcache hdata hupdates hid hauto
  | delete o =>
    obtain ⟨rfl, hid⟩ := hop
    exact starts_delete hst hcache hid hauto

/-! What a step keeps. -/

/-- The cache between the steps: what a find holds is the row; while writes are
    under way, what is cached is the object of one of them; and otherwise the
    row's. -/
structure Settling (E : Engine V) (cls : ModelClass V) (suffix : String) (id : V) (s : Clients E) :
    Prop where
  stage : ∀ (i : Nat) c, s.clients[i]? = some c → Stage E cls suffix id c
  held : ∀ (i : Nat) c, s.clients[i]? = some c → Client.Holding c → ∀ o, Stores E cls id o c.2 →
    ∃ r, s.world.rowOf cls suffix id = some r ∧ cls.Shows suffix o r
  underWay : ∀ (i : Nat) c, s.clients[i]? = some c → Client.Pending c →
    s.world.cached cls id = none ∨ ∃ (j : Nat) (d : Client V), s.clients[j]? = some d ∧
      Client.Pending d ∧ ∃ o, d.1.puts cls = some o ∧ s.world.cached cls id = some o
  coherent : (∀ (i : Nat) c, s.clients[i]? = some c → ¬ Client.Pending c) →
    s.world.CoherentAt cls suffix id

section
variable {s : Clients E} {i : Nat} {c : Client V}

/-- The client after its step. -/
def after (s : Clients E) (c : Client V) : Client V := (c.1, (c.2.advance E.answer s.world).1)

theorem Settling.stage_step (h : Settling E cls suffix id s) (hc : s.clients[i]? = some c)
    (hstage : Stage E cls suffix id (after s c)) (j : Nat) (d : Client V)
    (hd : (s.step E.answer i).clients[j]? = some d) : Stage E cls suffix id d := by
  rcases Pool.get_step hc hd with ⟨-, rfl⟩ | ⟨-, hd⟩
  · exact hstage
  · exact h.stage j d hd

/-- A step that changes nothing outside, of a client with no write under way. -/
theorem Settling.quiet (h : Settling E cls suffix id s) (hc : s.clients[i]? = some c)
    (hworld : (c.2.advance E.answer s.world).2 = s.world) (hbefore : ¬ Client.Pending c)
    (hafter : ¬ Client.Pending (after s c)) (hstage : Stage E cls suffix id (after s c))
    (hheld : Client.Holding (after s c) → ∀ o, Stores E cls id o (after s c).2 →
      ∃ r, s.world.rowOf cls suffix id = some r ∧ cls.Shows suffix o r) :
    Settling E cls suffix id (s.step E.answer i) := by
  have hsame : (s.step E.answer i).world = s.world := (Pool.world_step hc).trans hworld
  exact
    { stage := h.stage_step hc hstage
      held := by
        intro j d hd hholding
        rw [hsame]
        rcases Pool.get_step hc hd with ⟨-, rfl⟩ | ⟨-, hd⟩
        · exact hheld hholding
        · exact h.held j d hd hholding
      underWay := by
        intro j d hd hpending
        rw [hsame]
        rcases Pool.get_step hc hd with ⟨-, rfl⟩ | ⟨-, hd⟩
        · exact absurd hpending hafter
        · refine (h.underWay j d hd hpending).imp_right ?_
          intro hdirty
          obtain ⟨k, e, he, hpending', hputs⟩ := hdirty
          have hk : k ≠ i := by
            intro heq
            obtain rfl := heq
            rw [hc] at he
            exact hbefore (Option.some.inj he ▸ hpending')
          exact ⟨k, e, by rw [Pool.get_step_ne hk, he], hpending', hputs⟩
      coherent := by
        intro hnone
        rw [hsame]
        apply h.coherent
        intro j d hd
        by_cases hj : j = i
        · subst hj
          rw [hc] at hd
          exact Option.some.inj hd ▸ hbefore
        · exact hnone j d (by rw [Pool.get_step_ne hj, hd]) }

/-- A find stores its object: no write is under way. -/
theorem Settling.store (h : Settling E cls suffix id s) (hc : s.clients[i]? = some c) {o : Obj V}
    (hholding : Client.Holding c) (hstores : Stores E cls id o c.2)
    (horderly : Orderly cls suffix id s i) : Settling E cls suffix id (s.step E.answer i) := by
  have hquiet := (horderly c hc).1 hholding
  obtain ⟨hends, hworld⟩ := hstores.2 s.world
  have hput : (s.step E.answer i).world = s.world.put cls id o := (Pool.world_step hc).trans hworld
  have hdone : (after s c).2.Ends := hends
  exact
    { stage := h.stage_step hc (.inl hdone)
      held := by
        intro j d hd hholding'
        rw [hput]
        rcases Pool.get_step hc hd with ⟨-, rfl⟩ | ⟨-, hd⟩
        · exact absurd hholding' (not_holding_of_ends hdone)
        · exact h.held j d hd hholding'
      underWay := by
        intro j d hd hpending
        rcases Pool.get_step hc hd with ⟨-, rfl⟩ | ⟨-, hd⟩
        · exact absurd hpending (not_pending_of_ends hdone)
        · exact absurd hpending (hquiet d (List.mem_of_getElem? hd))
      coherent := by
        intro _
        rw [hput]
        exact (World.coherentAt_some (s.world.cached_put_self id o)).mpr (h.held i c hc hholding o hstores) }

/-- A write sees to the cache, and is under way. -/
theorem Settling.begin (h : Settling E cls suffix id s) (hc : s.clients[i]? = some c)
    (hwrites : c.1.writes = true) (hpending : Client.Pending (after s c))
    (hstage : Stage E cls suffix id (after s c))
    (hrow : (c.2.advance E.answer s.world).2.rowOf cls suffix id = s.world.rowOf cls suffix id)
    (hcached : (c.2.advance E.answer s.world).2.cached cls id = none ∨ ∃ o, c.1.puts cls = some o ∧
      (c.2.advance E.answer s.world).2.cached cls id = some o) :
    Settling E cls suffix id (s.step E.answer i) := by
  have hworld : (s.step E.answer i).world = (c.2.advance E.answer s.world).2 := Pool.world_step hc
  exact
    { stage := h.stage_step hc hstage
      held := by
        intro j d hd hholding
        rw [hworld, hrow]
        rcases Pool.get_step hc hd with ⟨-, rfl⟩ | ⟨-, hd⟩
        · exact absurd (hwrites.symm.trans hholding.1) Bool.noConfusion
        · exact h.held j d hd hholding
      underWay := by
        intro j d _ _
        rw [hworld]
        refine hcached.imp_right ?_
        intro hputs
        exact ⟨i, after s c, Pool.get_step_self hc, hpending, hputs⟩
      coherent := by
        intro hnone
        exact absurd hpending (hnone i _ (Pool.get_step_self hc)) }

/-- A write sends its statement. -/
theorem Settling.send (h : Settling E cls suffix id s) (hc : s.clients[i]? = some c)
    (hpending : Client.Pending c) (horderly : Orderly cls suffix id s i)
    (hends : (c.2.advance E.answer s.world).1.Ends)
    (hcache : (c.2.advance E.answer s.world).2.cache = s.world.cache)
    (hrow : ∀ o, c.1.puts cls = some o → ∀ r, s.world.rowOf cls suffix id = some r →
      DataObject.KeptIn cls E o r →
        ∃ r', (c.2.advance E.answer s.world).2.rowOf cls suffix id = some r' ∧ cls.Shows suffix o r') :
    Settling E cls suffix id (s.step E.answer i) := by
  obtain ⟨hnoFind, hown⟩ := (horderly c hc).2 hpending
  have hworld : (s.step E.answer i).world = (c.2.advance E.answer s.world).2 := Pool.world_step hc
  have hcached : (s.step E.answer i).world.cached cls id = s.world.cached cls id := by
    rw [hworld, World.cached, hcache]
    rfl
  have hdone : (after s c).2.Ends := hends
  -- the object in the cache is of another write under way, or of this one
  have hsplit : s.world.cached cls id = none ∨
      (∃ (k : Nat) (e : Client V), k ≠ i ∧ s.clients[k]? = some e ∧ Client.Pending e ∧
        ∃ o, e.1.puts cls = some o ∧ s.world.cached cls id = some o) ∨
      ∃ o, c.1.puts cls = some o ∧ s.world.cached cls id = some o := by
    refine (h.underWay i c hc hpending).imp_right ?_
    intro hdirty
    obtain ⟨k, e, he, hpending', hputs⟩ := hdirty
    by_cases hk : k = i
    · subst hk
      rw [hc] at he
      right
      rw [Option.some.inj he]
      exact hputs
    · exact .inl ⟨k, e, hk, he, hpending', hputs⟩
  have hothers : ∀ (o : Obj V), c.1.puts cls = some o → s.world.cached cls id = some o →
      ∀ (j : Nat) d, j ≠ i → s.clients[j]? = some d → ¬ Client.Pending d := by
    intro o hputs hin j d hj hd
    exact (hown o hputs hin).1 j (List.getElem?_eq_some_iff.mp hd).1 hj d hd
  exact
    { stage := h.stage_step hc (.inl hdone)
      held := by
        intro j d hd hholding
        rcases Pool.get_step hc hd with ⟨-, rfl⟩ | ⟨-, hd⟩
        · exact absurd hholding (not_holding_of_ends hdone)
        · exact absurd hholding (hnoFind d (List.mem_of_getElem? hd))
      underWay := by
        intro j d hd hpending'
        rw [hcached]
        rcases Pool.get_step hc hd with ⟨-, rfl⟩ | ⟨hj, hd⟩
        · exact absurd hpending' (not_pending_of_ends hdone)
        · rcases hsplit with hnone | ⟨k, e, hk, he, hpendingE, hputs⟩ | ⟨o, hputs, hin⟩
          · exact .inl hnone
          · exact .inr ⟨k, e, by rw [Pool.get_step_ne hk, he], hpendingE, hputs⟩
          · exact absurd hpending' (hothers o hputs hin j d hj hd)
      coherent := by
        intro hnone
        rcases hsplit with hempty | ⟨k, e, hk, he, hpendingE, -⟩ | ⟨o, hputs, hin⟩
        · exact World.coherentAt_of_none (hcached.trans hempty)
        · exact absurd hpendingE (hnone k e (by rw [Pool.get_step_ne hk, he]))
        · obtain ⟨r, hr, hkept⟩ := (hown o hputs hin).2
          refine (World.coherentAt_some (hcached.trans hin)).mpr ?_
          rw [hworld]
          exact hrow o hputs r hr hkept }

/-- A client that is done does nothing. -/
theorem Settling.idle (h : Settling E cls suffix id s) (hc : s.clients[i]? = some c)
    (hends : c.2.Ends) : Settling E cls suffix id (s.step E.answer i) := by
  have hsame := hends.advance (h := E.answer) s.world
  have hafter : after s c = c := Prod.ext rfl (congrArg Prod.fst hsame)
  have hends' : (after s c).2.Ends := by
    rw [hafter]
    exact hends
  exact h.quiet hc (congrArg Prod.snd hsame) (not_pending_of_ends hends)
    (not_pending_of_ends hends') (.inl hends')
    fun hholding => absurd hholding (not_holding_of_ends hends')

section
variable {id' : V} {throwException : Bool} {p : Rest V (Except PhpException Unit × Statics)}

theorem Settling.ask (h : Settling E cls suffix id s)
    (hc : s.clients[i]? = some (.findByPk id' throwException, p)) (hasks : Asks E cls suffix id p) :
    Settling E cls suffix id (s.step E.answer i) := by
  obtain ⟨hworld, hrest⟩ := hasks.2.2 s.world
  refine h.quiet hc hworld (not_pending_of_reads rfl) (not_pending_of_reads rfl) ?_ ?_
  · exact hrest.imp_right fun hlooks => .inr (.inl hlooks)
  · intro hholding
    rcases hrest with hends | hlooks
    · exact absurd hholding (not_holding_of_ends hends)
    · exact absurd hholding (not_holding_of_next (not_stores_of_sends hlooks.1))

/-- What a find has loaded is the row of this moment. -/
theorem Settling.look (h : Settling E cls suffix id s)
    (hc : s.clients[i]? = some (.findByPk id' throwException, p)) (hlooks : Looks E cls suffix id p) :
    Settling E cls suffix id (s.step E.answer i) := by
  obtain ⟨hworld, hrest⟩ := hlooks.2 s.world
  refine h.quiet hc hworld (not_pending_of_reads rfl) (not_pending_of_reads rfl) ?_ ?_
  · refine hrest.imp_right ?_
    intro hstores
    obtain ⟨o, r, -, -, hstores⟩ := hstores
    exact .inr (.inr ⟨o, hstores⟩)
  · intro hholding o hstores
    rcases hrest with hends | ⟨o', r, hrow, hshows, hstores'⟩
    · exact absurd hholding (not_holding_of_ends hends)
    · exact ⟨r, hrow, (hstores'.unique s.world hstores) ▸ hshows⟩

theorem settling_findByPk (h : Settling E cls suffix id s)
    (hc : s.clients[i]? = some (.findByPk id' throwException, p)) (horderly : Orderly cls suffix id s i)
    (hstage : Asks E cls suffix id p ∨ Looks E cls suffix id p ∨ ∃ o, Stores E cls id o p) :
    Settling E cls suffix id (s.step E.answer i) := by
  rcases hstage with hasks | hlooks | ⟨o, hstores⟩
  · exact h.ask hc hasks
  · exact h.look hc hlooks
  · exact h.store hc ⟨rfl, hstores.1⟩ hstores horderly

theorem settling_save {o : Obj V} {data : List (String × Val V)} (h : Settling E cls suffix id s)
    (hc : s.clients[i]? = some (.save o data, p)) (horderly : Orderly cls suffix id s i)
    (hstage : Puts E cls suffix id (DataObject.saved cls data o).2 p ∨
      Updates E cls suffix id (DataObject.saved cls data o).2 p) :
    Settling E cls suffix id (s.step E.answer i) := by
  rcases hstage with hputs | hupdates
  · obtain ⟨hworld, hnext⟩ := hputs.2 s.world
    refine h.begin hc rfl ⟨rfl, hnext.1⟩ (.inr (.inr hnext)) ?_ (.inr ⟨_, rfl, ?_⟩)
    · rw [hworld]
      exact s.world.rowOf_put id _ id
    · rw [hworld]
      exact s.world.cached_put_self id _
  · obtain ⟨hends, hcache, hrow⟩ := hupdates.2 s.world
    refine h.send hc ⟨rfl, hupdates.1⟩ horderly hends hcache ?_
    intro o' ho'
    obtain rfl : (DataObject.saved cls data o).2 = o' := Option.some.inj ho'
    exact hrow

theorem settling_delete {o : Obj V} (h : Settling E cls suffix id s)
    (hc : s.clients[i]? = some (.delete o, p)) (horderly : Orderly cls suffix id s i)
    (hstage : Drops E cls id p ∨ Deletes E p) : Settling E cls suffix id (s.step E.answer i) := by
  rcases hstage with hdrops | hdeletes
  · obtain ⟨hworld, hnext⟩ := hdrops.2 s.world
    refine h.begin hc rfl ⟨rfl, hnext.1⟩ (.inr (.inr hnext)) ?_ (.inl ?_)
    · rw [hworld]
      exact s.world.rowOf_drop id id
    · rw [hworld]
      exact s.world.cached_drop_self id
  · obtain ⟨hends, hcache⟩ := hdeletes.2 s.world
    refine h.send hc ⟨rfl, hdeletes.1⟩ horderly hends hcache ?_
    -- a delete has no object of its own in the cache
    intro o' ho'
    cases ho'

end

/-- Every orderly step, by the operation of the client and its stage. -/
theorem settling_step (h : Settling E cls suffix id s) (horderly : Orderly cls suffix id s i) :
    Settling E cls suffix id (s.step E.answer i) := by
  cases hc : s.clients[i]? with
  | none =>
    rw [Pool.step_none hc]
    exact h
  | some c =>
    obtain ⟨op, p⟩ := c
    rcases h.stage i (op, p) hc with hends | hstage
    · exact h.idle hc hends
    · cases op with
      | create data => exact hstage.elim
      | findByPks ids => exact hstage.elim
      | findByPk id' throwException => exact settling_findByPk h hc horderly hstage
      | save o data => exact settling_save h hc horderly hstage
      | delete o => exact settling_delete h hc horderly hstage

end

variable {operations : List (Operation V × Statics)} {w : World E}

theorem settling_start (hst : cls.Stored E suffix) (hcache : cls.cacheEnable = true)
    (hoperations : ∀ c ∈ operations, c.1.About cls suffix id ∧ c.2.autoCommit = true)
    (hcoh : w.CoherentAt cls suffix id) :
    Settling E cls suffix id (Clients.start cls suffix operations w) := by
  have hstart : ∀ (i : Nat) c, (Clients.start cls suffix operations w).clients[i]? = some c →
      Starts E cls suffix id c := by
    intro i c hc
    have hmem : c ∈ (Clients.start cls suffix operations w).clients := List.mem_of_getElem? hc
    obtain ⟨⟨op, st⟩, hop, rfl⟩ := List.mem_map.mp hmem
    obtain ⟨habout, hauto⟩ := hoperations _ hop
    exact starts_method hst hcache habout hauto
  exact
    { stage := by
        intro i c hc
        exact (hstart i c hc).1
      held := by
        intro i c hc hholding
        exact absurd hholding (hstart i c hc).2.2
      underWay := by
        intro i c hc hpending
        exact absurd hpending (hstart i c hc).2.1
      coherent := by
        intro _
        exact hcoh }

/-- When all clients are done after orderly steps, the cache has nothing under the
    key or its row. -/
theorem interleaved_coherent (hst : cls.Stored E suffix) (hcache : cls.cacheEnable = true)
    (hoperations : ∀ c ∈ operations, c.1.About cls suffix id ∧ c.2.autoCommit = true)
    (hcoh : w.CoherentAt cls suffix id) (schedule : List Nat)
    (horderly : AtEach (Pool.step E.answer) (Orderly cls suffix id)
      (Clients.start cls suffix operations w) schedule)
    (hdone : (run (Pool.step E.answer) (Clients.start cls suffix operations w) schedule).Done) :
    (run (Pool.step E.answer) (Clients.start cls suffix operations w) schedule).world.CoherentAt cls
      suffix id := by
  have hsettling : Settling E cls suffix id
      (run (Pool.step E.answer) (Clients.start cls suffix operations w) schedule) :=
    run_inv (settling_start hst hcache hoperations hcoh) horderly
      fun s i hsettling horderly => settling_step hsettling horderly
  apply hsettling.coherent
  intro i c hc
  exact not_pending_of_ends (hdone c (List.mem_of_getElem? hc))

end

end

end

/-! Ann is loaded, renamed and deleted by clients that take turns. -/

/-- The clients after the schedule, the cache empty at first. -/
def annTurns (operations : List (Operation String)) (schedule : List Nat) : Clients userEngine :=
  run (Pool.step userEngine.answer)
    (Clients.start userClass "" (operations.map fun op => (op, {})) annWorld) schedule

/-- The find meets the new name in the cache; the delete drops it before the update
    is sent, and is sent last. -/
theorem interleaved_coherent_ann :
    (annTurns [.findByPk "7" true, .save ann [("name", some "bob")], .delete ann]
      [1, 0, 2, 1, 2]).world.CoherentAt userClass "" "7" :=
  interleaved_coherent userClass_stored (by decide) (by decide) (World.coherentAt_of_none rfl) _
    ⟨by decide, by decide, by decide, by decide, by decide,
      trivial⟩
    (by decide)

/-- The find reads the old name, the update goes through, and the find stores what it
    has read; or it stores the row of the deleted user; or of two updates the first in
    the cache is the last in the table. -/
theorem interleaved_incoherent :
    annWorld.CoherentAt userClass "" "7" ∧
      ((annTurns [.findByPk "7" true, .save ann [("name", some "bob")]] [0, 0, 1, 1, 0]).Done ∧
        ¬(annTurns [.findByPk "7" true, .save ann [("name", some "bob")]] [0, 0, 1, 1, 0]
          ).world.CoherentAt userClass "" "7") ∧
      ((annTurns [.findByPk "7" true, .delete ann] [0, 0, 1, 1, 0]).Done ∧
        ¬(annTurns [.findByPk "7" true, .delete ann] [0, 0, 1, 1, 0]).world.CoherentAt userClass ""
          "7") ∧
      (annTurns [.save ann [("name", some "bob")], .save ann [("name", some "cy")]] [0, 1, 1, 0]).Done ∧
      ¬(annTurns [.save ann [("name", some "bob")], .save ann [("name", some "cy")]] [0, 1, 1, 0]
        ).world.CoherentAt userClass "" "7" :=
  ⟨World.coherentAt_of_none rfl, by decide, by decide, by decide⟩

end RubbishStore.Pdo
