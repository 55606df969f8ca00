import RubbishStore.Pdo.DataObject

/- The calls on one row as trees of outside calls: `find_by_pk`, and the writes of
   an object. A tree says what a call does under any database, any cache and any
   interleaving with other processes. `sends` is the part all of them share: a
   connection, with a transaction on it where `auto_commit` asks for one, and
   one statement. -/
namespace RubbishStore.Pdo
open RubbishStore.Lib
open Method

/-- What is left of a method: its outside calls, then its result and local state. -/
abbrev Steps (V σ α : Type) : Type :=
  Prog (Eff V) (fun e => Except PhpException e.Ans) (Except PhpException α × σ)

section
variable {V : Type}

/-- With a connection in the pool. -/
def Statics.join (st : Statics) (con : String) : Statics :=
  { st with connections := if con ∈ st.connections then st.connections else st.connections ++ [con] }

/-- Connected by the flags, the connection in the pool. -/
def Self.joined (s : Self V) : Self V where
  this := { s.this with connection := some s.this.pdoName }
  statics := s.statics.join s.this.pdoName

/-- A connection for `s`: where it is new and `auto_commit` is off, a transaction
    is begun on it first. `u` is the state if that raises. -/
def opening {τ β : Type} (s : Self V) (u : τ) (k : Steps V τ β) : Steps V τ β :=
  if s.this.pdoName ∉ s.statics.connections ∧ s.statics.autoCommit = false then
    attempt (.beginTransaction s.this.pdoName) u fun _ => k
  else k

/-- One statement of the accessor: `u` and `u'` are the states if the connection
    or the statement raises. -/
def sends {τ β : Type} (s : Self V) (t : Terminal) (u u' : τ) (k : Fetched V → Steps V τ β) :
    Steps V τ β :=
  opening (s.prepared t) u
    (attempt (Eff.execute (s.this.prepare t).pdoName ((s.this.prepare t).sent t)) u' k)

section
variable {σ τ α β : Type} (s : Self V)

theorem opening_autoCommit (hs : s.statics.autoCommit = true) (u : τ) (k : Steps V τ β) :
    opening s u k = k := by
  rw [opening, if_neg]
  rintro ⟨-, hoff⟩
  rw [hs] at hoff
  exact Bool.noConfusion hoff

theorem sends_autoCommit (hs : s.statics.autoCommit = true) (t : Terminal) (u u' : τ)
    (k : Fetched V → Steps V τ β) :
    sends s t u u' k =
      attempt (Eff.execute (s.this.prepare t).pdoName ((s.this.prepare t).sent t)) u' k :=
  opening_autoCommit (s.prepared t) hs u _

theorem opening_bind (u : τ) (k : Steps V τ α) (f : α → Method (Eff V) Eff.Ans PhpException τ β) :
    (opening s u k).bind (andThen f) = opening s u (k.bind (andThen f)) := by
  unfold opening
  split
  · exact attempt_bind u _ _ f
  · rfl

theorem sends_bind (t : Terminal) (u u' : τ) (k : Fetched V → Steps V τ α)
    (f : α → Method (Eff V) Eff.Ans PhpException τ β) :
    (sends s t u u' k).bind (andThen f) = sends s t u u' fun x => (k x).bind (andThen f) := by
  rw [sends, opening_bind, attempt_bind]
  rfl

/-- A statement sent from inside another method. -/
theorem sends_bind_on (t : Terminal) (u u' : τ) (k : Fetched V → Steps V τ α) (back : τ → σ) :
    (sends s t u u' k).bind (fun r => .ret (r.1.map (·, r.2), back r.2)) =
      sends s t (back u) (back u') fun x =>
        (k x).bind fun r => .ret (r.1.map (·, r.2), back r.2) := by
  unfold sends opening
  split
  · rw [attempt_bind_on]
    congr 1
    funext _
    exact attempt_bind_on _ _ _ back
  · exact attempt_bind_on _ _ _ back

end

namespace MysqlAccessor

theorem tree_connect (s : Self V) :
    tree connect s = opening s s (.ret (.ok s.this.pdoName, s.joined)) := by
  have hget : tree (getConnection s.this.pdoName) s =
      opening s s (.ret (.ok (), { s with statics := s.statics.join s.this.pdoName })) := by
    simp only [getConnection, tree_bind, tree_get, Prog.bind_ret, andThen_ok, tree_ite, tree_pure,
      tree_modify, tree_perform, opening, Statics.join]
    by_cases hp : s.this.pdoName ∈ s.statics.connections
    · simp only [hp, if_true, not_true, false_and, if_false]
    · by_cases hc : s.statics.autoCommit = false
      · simp only [hp, hc, if_true, if_false, not_false_eq_true, and_self, attempt_bind, Prog.bind_ret,
          andThen_ok, tree_modify]
      · have hon : s.statics.autoCommit = true := by simpa using hc
        simp only [hp, hon, Bool.true_eq_false, if_false, and_false]
  simp only [connect, tree_bind, tree_get, Prog.bind_ret, andThen_ok, hget, setThis, opening_bind,
    tree_modify, tree_pure]
  rfl

theorem tree_executeInternal (s : Self V) (t : Terminal) :
    tree (executeInternal t) s =
      opening s s (attempt (Eff.execute s.this.pdoName (s.this.sent t)) s.joined fun f =>
        .ret (.ok f, s.joined)) := by
  simp only [executeInternal, tree_bind, tree_connect, opening_bind, Prog.bind_ret, andThen_ok,
    tree_get, tree_perform]
  rfl

theorem tree_executeRead (s : Self V) (t : Terminal) :
    tree (executeRead t) s =
      sends s t (s.prepared t) (s.prepared t).joined fun f => .ret (.ok f, (s.prepared t).joined) := by
  have hinternal := tree_executeInternal (s.prepared t) t
  simp only [executeRead, tree_bind, setThis, tree_modify, Prog.bind_ret, andThen_ok]
  exact hinternal

theorem tree_executeWrite (s : Self V) (t : Terminal) :
    tree (executeWrite t) s =
      sends s t (s.prepared t) (s.prepared t).joined fun f =>
        .ret (.ok f.rowCount, (s.prepared t).joined) := by
  have hinternal := tree_executeInternal (s.prepared t) t
  simp only [executeWrite, tree_bind, setThis, tree_modify, Prog.bind_ret, andThen_ok]
  show (tree (executeInternal t) (s.prepared t)).bind _ = _
  rw [hinternal, opening_bind, attempt_bind]
  rfl

variable [PhpScalar V]

theorem tree_initObjs {s : Self V} {obj : Obj V}
    (hc : s.this.model.construct s.statics.splitSuffix = .ok obj) (rs : List (FetchRow V)) :
    tree (initObjs rs) s =
      .ret (.ok (rs.map (s.this.fill obj)), s.adding (rs.map (s.this.fill obj))) := by
  induction rs generalizing s with
  | nil => rw [List.map_nil, s.adding_nil]; rfl
  | cons r rs ih =>
    have htail := @ih (s.adding [s.this.fill obj r]) hc
    rw [Self.adding_adding] at htail
    simp only [initObjs, tree_bind, tree_get, Prog.bind_ret, andThen_ok, tree_lift, hc, setThis,
      tree_modify]
    show (tree (initObjs rs) (s.adding [_])).bind _ = _
    rw [htail]
    rfl

/-- The state in which a `find` has loaded the rows `rs`. -/
def Self.loaded (s : Self V) (obj : Obj V) (rs : List (FetchRow V)) : Self V :=
  (s.prepared .findAll).joined.adding (rs.map (s.this.fill obj))

/-- A `find`: one statement, and an object for each row. -/
theorem tree_findAll {s : Self V} {obj : Obj V}
    (hc : s.this.model.construct s.statics.splitSuffix = .ok obj) :
    tree findAll s =
      sends s .findAll (s.prepared .findAll) (s.prepared .findAll).joined fun f =>
        .ret (.ok (f.rows.map (s.this.fill obj)), Self.loaded s obj f.rows) := by
  have hfill : (s.prepared .findAll).joined.this.fill obj = s.this.fill obj := by
    rw [Self.joined, Self.prepared, Accessor.prepare_eq]
    rfl
  have hconstruct : (s.prepared .findAll).joined.this.model.construct
      (s.prepared .findAll).joined.statics.splitSuffix = .ok obj := by
    rw [Self.joined, Self.prepared, Accessor.prepare_eq]
    exact hc
  simp only [findAll, tree_bind, tree_executeRead, sends_bind, Prog.bind_ret, andThen_ok,
    tree_initObjs hconstruct, hfill, Self.loaded]

/-- The loaded state asks the same class, mapping and cache as before. -/
theorem Self.loaded_frame (s : Self V) (obj : Obj V) (rs : List (FetchRow V)) :
    (Self.loaded s obj rs).this.model = s.this.model ∧
      (Self.loaded s obj rs).this.mapping = s.this.mapping ∧
      (Self.loaded s obj rs).this.cacheEnable = s.this.cacheEnable := by
  rw [Self.loaded, Self.prepared, Accessor.prepare_eq]
  exact ⟨rfl, rfl, rfl⟩

/-- Filtered by the key, which is one of `ids`. -/
def filteredByKey (s : Self V) (op : String) (ids : Operand V) : Self V :=
  { s with this := s.this.filterByOp s.this.mapping.keyName op ids }

/-- `find_by_pk_internal` on an operand that `filter` lets through. -/
theorem tree_findByPkInternal {s : Self V} {op : String} {ids : Operand V}
    (hf : s.this.filter s.this.mapping.keyName ids =
      .ok (s.this.filterByOp s.this.mapping.keyName op ids)) :
    tree (findByPkInternal ids) s = tree findAll (filteredByKey s op ids) := by
  simp only [findByPkInternal, tree_bind, tree_get, Prog.bind_ret, andThen_ok, hf, tree_lift, setThis,
    tree_modify]
  rfl

/-- The accessor that looks for one key. -/
def lookingFor (s : Self V) (id : V) : Self V :=
  filteredByKey { s with this := s.this.limit 1 } "=" (.scalar (some id))

/-- `find_by_pk` without the cache: a statement, and its object to the cache. -/
theorem tree_loadByPk {s : Self V} {obj : Obj V}
    (hc : s.this.model.construct s.statics.splitSuffix = .ok obj) (id : V) (throwException : Bool) :
    tree (loadByPk id throwException) s =
      sends (lookingFor s id) .findAll ((lookingFor s id).prepared .findAll)
        ((lookingFor s id).prepared .findAll).joined fun f =>
        match (f.rows.map (s.this.fill obj)).getLast? with
        | none =>
          if throwException then
            .ret (.error { message := "no obj loaded", code := "002" },
              Self.loaded (lookingFor s id) obj f.rows)
          else .ret (.ok none, Self.loaded (lookingFor s id) obj f.rows)
        | some o =>
          if s.this.cacheEnable then
            attempt (Eff.cacheSet (s.this.model.getObjKey (o.get s.this.mapping.keyName)) o
              (o.get "cache_expire")) (Self.loaded (lookingFor s id) obj f.rows) fun _ =>
              .ret (.ok (some o), Self.loaded (lookingFor s id) obj f.rows)
          else .ret (.ok (some o), Self.loaded (lookingFor s id) obj f.rows) := by
  have hinternal : tree (findByPkInternal (.scalar (some id))) { s with this := s.this.limit 1 } =
      tree findAll (lookingFor s id) := tree_findByPkInternal rfl
  have hfind := tree_findAll (s := lookingFor s id) hc
  simp only [loadByPk, tree_bind, setThis, tree_modify, Prog.bind_ret, andThen_ok, hinternal]
  show (tree findAll (lookingFor s id)).bind _ = _
  rw [hfind, sends_bind]
  congr 1
  funext f
  show tree (match (f.rows.map (s.this.fill obj)).getLast? with | none => _ | some o => _)
    (Self.loaded (lookingFor s id) obj f.rows) = _
  obtain ⟨hmodel, hmapping, hcache⟩ := Self.loaded_frame (lookingFor s id) obj f.rows
  cases (f.rows.map (s.this.fill obj)).getLast? with
  | none => simp only [tree_ite, tree_throw, tree_pure]
  | some o =>
    have hkey : (Self.loaded (lookingFor s id) obj f.rows).this.model.getObjKey
        (o.get (Self.loaded (lookingFor s id) obj f.rows).this.mapping.keyName) =
        s.this.model.getObjKey (o.get s.this.mapping.keyName) := by
      rw [hmodel, hmapping]
      rfl
    simp only [tree_bind, tree_get, Prog.bind_ret, andThen_ok, tree_ite, setCachedObjs, tree_perform,
      attempt_bind, tree_pure, hcache]
    rw [hkey]
    rfl

/-- `find_by_pk`: the cache first, when it is on. -/
theorem tree_findByPk (s : Self V) (id : V) (throwException : Bool) :
    tree (findByPk id throwException) s =
      if s.this.cacheEnable && !s.statics.delCache then
        attempt (Eff.cacheGet (s.this.model.getObjKey (some id))) s fun
          | some o => .ret (.ok (some o), s)
          | none => tree (loadByPk id throwException) s
      else tree (loadByPk id throwException) s := by
  simp only [findByPk, tree_bind, tree_get, Prog.bind_ret, andThen_ok, tree_ite, tree_perform,
    attempt_bind]
  congr 2
  funext hit
  cases hit <;> rfl

end MysqlAccessor

end

end RubbishStore.Pdo
