import RubbishStore.Lib.Runs
import RubbishStore.Pdo.Calls

/- Placeholders and bound values over the calls made on one accessor.
   `queryStep` is one builder or terminal call under an environment; `built` is
   the accessor the builder calls alone give. The filters, assignments and
   flags of a run are those of its builder calls (`run_query`), while
   `pdo_values` keeps what every earlier terminal call appended
   (`run_pdoValues`). -/
namespace RubbishStore.Pdo
open RubbishStore.Lib
open MysqlAccessor

section
variable {V : Type}

/-- What a query is about: the accessor without what terminal calls write. -/
def Accessor.query (a : Accessor V) : Accessor V :=
  { a with connection := none, readOnly := false, sql := "", pdoValues := [], built := [] }

theorem Accessor.stmt_query (a : Accessor V) (t : Terminal) : a.query.stmt t = a.stmt t := by
  cases t <;> rfl

theorem Builder.after_query (a : Accessor V) (b : Builder V) :
    (b.after a).query = b.after a.query := by
  cases b with
  | filter name value =>
    rcases value with v | (_ | ⟨v, vs⟩) <;> rfl
  | _ => rfl

theorem Builder.after_pdoValues (a : Accessor V) (b : Builder V) :
    (b.after a).pdoValues = a.pdoValues := by
  cases b with
  | filter name value =>
    rcases value with v | (_ | ⟨v, vs⟩) <;> rfl
  | _ => rfl

/-- The builder calls among the calls. -/
def builders : List (QueryCall V) → List (Builder V)
  | [] => []
  | .build b :: cs => b :: builders cs
  | .terminal _ :: cs => builders cs

/-- A fresh accessor after builder calls. -/
def built (cls : ModelClass V) (suffix : String) (bs : List (Builder V)) : Accessor V :=
  bs.foldl Builder.after (Accessor.fresh cls suffix)

/-- The values that earlier terminal calls of a list of calls bind, each where
    it stands. -/
def boundBy (cls : ModelClass V) (suffix : String) :
    List (Builder V) → List (QueryCall V) → List (Val V)
  | _, [] => []
  | bs, .build b :: cs => boundBy cls suffix (bs ++ [b]) cs
  | bs, .terminal t :: cs => ((built cls suffix bs).stmt t).values ++ boundBy cls suffix bs cs

theorem query_built_concat (cls : ModelClass V) (suffix : String) (bs : List (Builder V))
    (b : Builder V) : (built cls suffix (bs ++ [b])).query = b.after (built cls suffix bs).query := by
  rw [built, List.foldl_append]
  exact Builder.after_query _ b

theorem prepare_built_pdoValues (cls : ModelClass V) (suffix : String) (bs : List (Builder V))
    (t : Terminal) :
    ((built cls suffix bs).prepare t).pdoValues = ((built cls suffix bs).stmt t).values := by
  have hnil : (built cls suffix bs).pdoValues = [] := by
    have h : ∀ a : Accessor V, (bs.foldl Builder.after a).pdoValues = a.pdoValues := by
      induction bs with
      | nil => exact fun _ => rfl
      | cons b bs ih => exact fun a => (ih (b.after a)).trans (Builder.after_pdoValues a b)
    exact h _
  rw [Accessor.prepare_eq, hnil]
  rfl

variable [PhpScalar V] {W : Type}

/-- One call under an environment. -/
def queryStep (h : Outside V W) (x : Self V × W) (c : QueryCall V) : Self V × W :=
  (Method.exec h (queryCall c) x.1 x.2).2

/-- What a call leaves of the query, and what it appends to `pdo_values`. -/
theorem queryStep_terminal (h : Outside V W) (x : Self V × W) (t : Terminal) :
    (queryStep h x (.terminal t)).1.this.query = x.1.this.query ∧
      (queryStep h x (.terminal t)).1.this.pdoValues =
        x.1.this.pdoValues ++ (x.1.this.stmt t).values := by
  obtain ⟨con, pool, objs, hexec, -⟩ := exec_terminal h x.1 x.2 t
  have hstate : (queryStep h x (.terminal t)).1 =
      ((x.1.prepared t).connected con pool).adding objs := hexec
  rw [hstate, Self.prepared, Accessor.prepare_eq]
  exact ⟨rfl, rfl⟩

theorem queryStep_build (h : Outside V W) (x : Self V × W) (b : Builder V) :
    queryStep h x (.build b) = ({ x.1 with this := b.after x.1.this }, x.2) :=
  exec_build h x.1 x.2 b

/-- The state of the accessor after a run: the query of its builder calls, and
    the values of all its terminal calls. -/
theorem run_query (h : Outside V W) (cls : ModelClass V) (suffix : String) (bs : List (Builder V))
    (cs : List (QueryCall V)) (x : Self V × W)
    (hx : x.1.this.query = (built cls suffix bs).query) :
    (run (queryStep h) x cs).1.this.query = (built cls suffix (bs ++ builders cs)).query ∧
      (run (queryStep h) x cs).1.this.pdoValues =
        x.1.this.pdoValues ++ boundBy cls suffix bs cs := by
  induction cs generalizing bs x with
  | nil => simp [builders, boundBy, hx]
  | cons c cs ih =>
    cases c with
    | build b =>
      have hb : (queryStep h x (.build b)).1.this.query = (built cls suffix (bs ++ [b])).query := by
        rw [queryStep_build, query_built_concat, ← hx]
        exact Builder.after_query _ b
      have htail := ih (bs ++ [b]) _ hb
      rw [List.append_assoc] at htail
      refine ⟨htail.1, htail.2.trans ?_⟩
      rw [queryStep_build]
      simp only [Builder.after_pdoValues, boundBy]
    | terminal t =>
      obtain ⟨hq, hv⟩ := queryStep_terminal h x t
      have htail := ih bs _ (hq.trans hx)
      refine ⟨htail.1, htail.2.trans ?_⟩
      have hstmt : x.1.this.stmt t = (built cls suffix bs).stmt t := by
        rw [← Accessor.stmt_query, hx, Accessor.stmt_query]
      rw [hv, hstmt, boundBy, List.append_assoc]

/-- A process that has just created an accessor with `use_model`. -/
def opened (cls : ModelClass V) (suffix : String) (st : Statics) (w : W) : Self V × W :=
  (⟨Accessor.fresh cls suffix, st⟩, w)

theorem stmt_after (h : Outside V W) (cls : ModelClass V) (suffix : String) (st : Statics) (w : W)
    (cs : List (QueryCall V)) (t : Terminal) :
    (run (queryStep h) (opened cls suffix st w) cs).1.this.stmt t =
      (built cls suffix (builders cs)).stmt t := by
  have hq := (run_query h cls suffix [] cs (opened cls suffix st w) rfl).1
  rw [← Accessor.stmt_query, hq, Accessor.stmt_query, List.nil_append]

theorem pdoValues_after (h : Outside V W) (cls : ModelClass V) (suffix : String) (st : Statics)
    (w : W) (cs : List (QueryCall V)) :
    (run (queryStep h) (opened cls suffix st w) cs).1.this.pdoValues = boundBy cls suffix [] cs :=
  (run_query h cls suffix [] cs (opened cls suffix st w) rfl).2

/-- The text and the values the terminal call after `pre` leaves. -/
theorem prepared_after (h : Outside V W) (cls : ModelClass V) (suffix : String) (st : Statics)
    (w : W) (pre : List (QueryCall V)) (t : Terminal) :
    let a := (run (queryStep h) (opened cls suffix st w) (pre ++ [.terminal t])).1.this
    a.sql = ((built cls suffix (builders pre)).stmt t).text ∧
      a.pdoValues =
        boundBy cls suffix [] pre ++ ((built cls suffix (builders pre)).stmt t).values := by
  intro a
  let x := run (queryStep h) (opened cls suffix st w) pre
  have hstmt : x.1.this.stmt t = (built cls suffix (builders pre)).stmt t :=
    stmt_after h cls suffix st w pre t
  obtain ⟨con, pool, objs, hexec, -⟩ := exec_terminal h x.1 x.2 t
  have ha : a = (((x.1.prepared t).connected con pool).adding objs).this := by
    rw [← hexec]
    exact congrArg (fun y : Self V × W => y.1.this) (run_append (queryStep h) _ pre [.terminal t])
  rw [ha, Self.prepared, Accessor.prepare_eq, hstmt]
  refine ⟨rfl, ?_⟩
  exact congrArg (· ++ _) (pdoValues_after h cls suffix st w pre)

/-- No call on an accessor touches `auto_commit`. -/
theorem run_autoCommit (h : Outside V W) (x : Self V × W) (cs : List (QueryCall V)) :
    (run (queryStep h) x cs).1.statics.autoCommit = x.1.statics.autoCommit := by
  refine run_inv (I := fun y : Self V × W => y.1.statics.autoCommit = x.1.statics.autoCommit) rfl
    atEach_true ?_
  intro y c hy _
  cases c with
  | build b =>
    rw [queryStep_build]
    exact hy
  | terminal t =>
    obtain ⟨con, pool, objs, hexec, -⟩ := exec_terminal h y.1 y.2 t
    have hstate : (queryStep h y (.terminal t)).1 = _ := hexec
    rw [hstate]
    exact hy

/-- With `auto_commit` on, the terminal call after `pre` sends its statement. -/
theorem terminal_sends (h : Outside V W) (cls : ModelClass V) (suffix : String) {st : Statics}
    (hst : st.autoCommit = true) (w : W) (pre : List (QueryCall V)) (t : Terminal) :
    let x := run (queryStep h) (opened cls suffix st w) pre
    Method.effects h (terminal t) x.1 x.2 =
      [.execute (x.1.this.prepare t).pdoName ((x.1.this.prepare t).sent t)] := by
  intro x
  exact effects_terminal_sent h x.1 x.2 t ((run_autoCommit h _ pre).trans hst)

/-! Several terminal calls on one accessor. -/

/-- Every statement of the run has a placeholder for each value it binds, and
    binds what a fresh accessor binds after the same builder calls. -/
def BindsRight (h : Outside V W) (cls : ModelClass V) (suffix : String) (st : Statics) (w : W)
    (cs : List (QueryCall V)) : Prop :=
  ∀ pre t post, cs = pre ++ .terminal t :: post → ∀ con sent,
    .execute con sent ∈
      (let x := run (queryStep h) (opened cls suffix st w) pre
       Method.effects h (terminal t) x.1 x.2) →
    marks sent.sql = sent.values.length ∧
      sent.values = ((built cls suffix (builders pre)).prepare t).pdoValues

/-- Before each terminal call no terminal call has bound a value, and the texts
    of its statement have as many `?`s as the where text has values. -/
def BindsOnce (cls : ModelClass V) (suffix : String) (cs : List (QueryCall V)) : Prop :=
  ∀ pre t post, cs = pre ++ .terminal t :: post →
    boundBy cls suffix [] pre = [] ∧
      ((built cls suffix (builders pre)).stmt t).nameMarks +
        ((built cls suffix (builders pre)).stmt t).userMarks =
          ((built cls suffix (builders pre)).stmt t).userCount

/-- What the terminal call after `pre` sends. -/
theorem sent_after (h : Outside V W) (cls : ModelClass V) (suffix : String) (st : Statics) (w : W)
    (pre : List (QueryCall V)) (t : Terminal) {con : String} {sent : Sent V}
    (hmem : .execute con sent ∈
      (let x := run (queryStep h) (opened cls suffix st w) pre
       Method.effects h (terminal t) x.1 x.2)) :
    sent.sql = ((built cls suffix (builders pre)).stmt t).text ∧
      sent.values =
        boundBy cls suffix [] pre ++ ((built cls suffix (builders pre)).stmt t).values := by
  obtain ⟨-, rfl⟩ := execute_mem_terminal h _ _ hmem
  rw [Accessor.sent, Accessor.prepare_eq]
  simp only [stmt_after, pdoValues_after, and_self]

/-- A list of calls binds its values right under every environment exactly when
    no terminal call in it comes after one that bound a value. -/
theorem bindsRight_iff_bindsOnce (cls : ModelClass V) (suffix : String) (cs : List (QueryCall V)) :
    (∀ (W : Type) (h : Outside V W) (st : Statics) (w : W), BindsRight h cls suffix st w cs) ↔
      BindsOnce cls suffix cs := by
  constructor
  · intro hright pre t post hcs
    -- with `auto_commit` on, the statement is sent
    let x := run (queryStep (emptyOutside (V := V))) (opened cls suffix {} ()) pre
    have hsent : Eff.execute (x.1.this.prepare t).pdoName ((x.1.this.prepare t).sent t) ∈
        Method.effects (emptyOutside (V := V)) (terminal t) x.1 x.2 := by
      rw [terminal_sends emptyOutside cls suffix rfl () pre t]
      exact List.mem_singleton_self _
    obtain ⟨hmarks, hvalues⟩ := hright Unit emptyOutside {} () pre t post hcs _ _ hsent
    obtain ⟨hsql, hvals⟩ := sent_after emptyOutside cls suffix {} () pre t hsent
    have hnone : boundBy cls suffix [] pre = [] := by
      rw [hvals, prepare_built_pdoValues] at hvalues
      exact List.append_left_eq_self.mp hvalues
    refine ⟨hnone, ?_⟩
    have hcount := ((built cls suffix (builders pre)).stmt t).marks_text
    rw [hsql, hvals, hnone, List.nil_append] at hmarks
    omega
  · intro honce W h st w pre t post hcs con sent hsent
    obtain ⟨hnone, hbal⟩ := honce pre t post hcs
    obtain ⟨hsql, hvals⟩ := sent_after h cls suffix st w pre t hsent
    rw [hnone, List.nil_append] at hvals
    have hcount := ((built cls suffix (builders pre)).stmt t).marks_text
    refine ⟨?_, ?_⟩
    · rw [hsql, hvals]
      omega
    · rw [hvals, prepare_built_pdoValues]

end

/-- A count before a find, as paging does it: the find binds the filter's value
    a second time. -/
theorem count_then_find_rebinds :
    ¬ BindsRight (emptyOutside (V := String)) userClass "" {} ()
      [.build (.filter "id" (.scalar (some "7"))), .terminal .count, .terminal .findAll] := by
  intro hright
  let pre : List (QueryCall String) :=
    [.build (.filter "id" (.scalar (some "7"))), .terminal .count]
  have hauto : ({} : Statics).autoCommit = true := rfl
  have hsends := terminal_sends emptyOutside userClass "" hauto () pre .findAll
  have hmem := hsends.symm ▸ List.mem_singleton_self _
  obtain ⟨-, hvalues⟩ := hright pre .findAll [] rfl _ _ hmem
  rw [(sent_after emptyOutside userClass "" {} () pre .findAll hmem).2] at hvalues
  exact absurd hvalues (by decide)

/-! One terminal call on a fresh accessor. -/

section
variable {V : Type}

/-- The values a builder call adds to the where clause. -/
def Builder.filterValues : Builder V → List (Val V)
  | .filter _ value | .filterByOp _ _ value => value.values
  | .setField _ _ | .sort _ _ | .limit _ | .offset _ | .distinct | .loadField _
  | .userDefineWhere _ _ | .forceMaster => []

/-- `set_fields` after one more builder call. -/
def Builder.assign (sets : List (String × Val V)) : Builder V → List (String × Val V)
  | .setField name value => assocSet sets name value
  | .filter _ _ | .filterByOp _ _ _ | .sort _ _ | .limit _ | .offset _ | .distinct | .loadField _
  | .userDefineWhere _ _ | .forceMaster => sets

/-- The values of the caller's where text after one more builder call. -/
def Builder.whereBinds (values : List (Val V)) : Builder V → List (Val V)
  | .userDefineWhere _ values => values
  | .filter _ _ | .filterByOp _ _ _ | .setField _ _ | .sort _ _ | .limit _ | .offset _ | .distinct
  | .loadField _ | .forceMaster => values

/-- The values a terminal call is to bind after the builder calls `bs`: the
    assignments in the order of `set_fields`, the filters in the order of their
    calls, then those of the where text. -/
def expectedValues (bs : List (Builder V)) (t : Terminal) : List (Val V) :=
  (if t.assigns then (bs.foldl Builder.assign []).map Prod.snd else []) ++
    (if t.filters then bs.flatMap Builder.filterValues ++ bs.foldl Builder.whereBinds [] else [])

/-- The operator texts hold no `?`. -/
def Builder.PlainOp : Builder V → Prop
  | .filterByOp _ op _ => marks op = 0
  | .filter _ _ | .setField _ _ | .sort _ _ | .limit _ | .offset _ | .distinct | .loadField _
  | .userDefineWhere _ _ | .forceMaster => True

/-- The directions of `sort` hold no `?`. -/
def Builder.PlainSort : Builder V → Prop
  | .sort _ type => marks type = 0
  | .filter _ _ | .filterByOp _ _ _ | .setField _ _ | .limit _ | .offset _ | .distinct
  | .loadField _ | .userDefineWhere _ _ | .forceMaster => True

/-- A where text has a `?` for each of its values. -/
def Builder.Balanced : Builder V → Prop
  | .userDefineWhere sqlWhere values => marks sqlWhere = values.length
  | .filter _ _ | .filterByOp _ _ _ | .setField _ _ | .sort _ _ | .limit _ | .offset _ | .distinct
  | .loadField _ | .forceMaster => True

/-- The table and the columns hold no `?`. -/
def Mapping.Plain (m : Mapping) : Prop := marks m.table = 0 ∧ ∀ c ∈ m.columns, marks c.2 = 0

/-- The type of an `insert` holds no `?`. -/
def Terminal.Plain : Terminal → Prop
  | .insert type => marks type = 0
  | .findAll | .count | .sum _ | .max _ | .min _ | .update | .delete => True

instance (m : Mapping) : Decidable m.Plain :=
  inferInstanceAs (Decidable (marks m.table = 0 ∧ ∀ c ∈ m.columns, marks c.2 = 0))

instance : (b : Builder V) → Decidable b.PlainOp
  | .filterByOp _ op _ => inferInstanceAs (Decidable (marks op = 0))
  | .filter _ _ | .setField _ _ | .sort _ _ | .limit _ | .offset _ | .distinct | .loadField _
  | .userDefineWhere _ _ | .forceMaster => .isTrue trivial

instance : (b : Builder V) → Decidable b.PlainSort
  | .sort _ type => inferInstanceAs (Decidable (marks type = 0))
  | .filter _ _ | .filterByOp _ _ _ | .setField _ _ | .limit _ | .offset _ | .distinct
  | .loadField _ | .userDefineWhere _ _ | .forceMaster => .isTrue trivial

instance : (b : Builder V) → Decidable b.Balanced
  | .userDefineWhere sqlWhere values =>
    inferInstanceAs (Decidable (marks sqlWhere = values.length))
  | .filter _ _ | .filterByOp _ _ _ | .setField _ _ | .sort _ _ | .limit _ | .offset _ | .distinct
  | .loadField _ | .forceMaster => .isTrue trivial

theorem Mapping.Plain.marks_toDb {m : Mapping} (h : m.Plain) (name : String) :
    marks (m.toDb name) = 0 := by
  unfold Mapping.toDb
  cases hl : m.columns.lookup name with
  | none => rfl
  | some c =>
    obtain ⟨l₁, l₂, hm, -⟩ := List.lookup_eq_some_iff.mp hl
    exact h.2 (name, c) (by rw [hm]; simp)

/-- What builder calls with plain texts keep true of the accessor. -/
structure Accessor.Plain (a : Accessor V) : Prop where
  mapping : a.mapping.Plain
  ops : ∀ f ∈ a.filters.toList, marks f.2.1 = 0
  sorts : ∀ p ∈ a.sorts, marks p.2 = 0
  where_balanced : a.userFlag = true → marks a.userWhere = a.userValues.length

theorem Builder.after_plain {a : Accessor V} (h : a.Plain) {b : Builder V} (hop : b.PlainOp)
    (hsort : b.PlainSort) (hbal : b.Balanced) : (b.after a).Plain := by
  have hpush : ∀ name op value, marks op = 0 → (a.filterByOp name op value).Plain := by
    intro name op value hop
    refine ⟨h.mapping, ?_, h.sorts, h.where_balanced⟩
    intro f hf
    rw [Accessor.filterByOp, Filters.toList_push, List.mem_append, List.mem_singleton] at hf
    rcases hf with hf | rfl
    · exact h.ops f hf
    · exact hop
  cases b with
  | filter name value =>
    rcases value with v | (_ | ⟨v, vs⟩)
    · exact hpush name "=" (.scalar v) (by decide)
    · exact h
    · exact hpush name "in" (.list (v :: vs)) (by decide)
  | filterByOp name op value => exact hpush name op value hop
  | sort name type =>
    refine ⟨h.mapping, h.ops, ?_, h.where_balanced⟩
    intro p hp
    rcases mem_assocSet hp with hp | hp
    · exact h.sorts p hp
    · rw [hp]
      exact hsort
  | userDefineWhere sqlWhere values => exact ⟨h.mapping, h.ops, h.sorts, fun _ => hbal⟩
  | setField name value | limit n | offset n | distinct | loadField fieldNames | forceMaster =>
    exact ⟨h.mapping, h.ops, h.sorts, h.where_balanced⟩

theorem built_plain {cls : ModelClass V} {suffix : String} (hm : (cls.getMapping suffix).Plain)
    {bs : List (Builder V)} (hop : ∀ b ∈ bs, b.PlainOp) (hsort : ∀ b ∈ bs, b.PlainSort)
    (hbal : ∀ b ∈ bs, b.Balanced) : (built cls suffix bs).Plain := by
  have hall : ∀ b ∈ bs, ∀ a : Accessor V, a.Plain → (b.after a).Plain :=
    fun b hb a ha => Builder.after_plain ha (hop b hb) (hsort b hb) (hbal b hb)
  have h : ∀ a : Accessor V, a.Plain → (bs.foldl Builder.after a).Plain := by
    clear hop hsort hbal
    induction bs with
    | nil => exact fun _ ha => ha
    | cons b bs ih =>
      exact fun a ha => ih (fun b' hb' => hall b' (List.mem_cons_of_mem _ hb')) _
        (hall b (by simp) a ha)
  exact h _ ⟨hm, by simp [Accessor.fresh], by simp [Accessor.fresh], by simp [Accessor.fresh]⟩

/-- Where the conditions, assignments, order and where text of a statement come
    from. -/
theorem Accessor.mem_stmt_conds {a : Accessor V} {t : Terminal} {c : Cond V}
    (hc : c ∈ (a.stmt t).conds) : ∃ f ∈ a.filters.toList, cond a.mapping f = c := by
  by_cases ht : t.filters = true
  · simpa only [stmt, ht, if_true, List.mem_map] using hc
  · simp [stmt, ht] at hc

theorem Accessor.mem_stmt_sets {a : Accessor V} {t : Terminal} {p : String × Val V}
    (hp : p ∈ (a.stmt t).sets) : ∃ s ∈ a.setFields, (a.mapping.toDb s.1, s.2) = p := by
  by_cases ht : t.assigns = true
  · simpa only [stmt, ht, if_true, List.mem_map] using hp
  · simp [stmt, ht] at hp

theorem Accessor.mem_stmt_orderBy {a : Accessor V} {t : Terminal} {p : String × String}
    (hp : p ∈ (a.stmt t).orderBy) : ∃ s ∈ a.sorts, (a.mapping.toDb s.1, s.2) = p := by
  by_cases ht : t = .findAll
  · simpa only [stmt, ht, if_true, List.mem_map] using hp
  · simp [stmt, ht] at hp

theorem Accessor.mem_stmt_userWhere {a : Accessor V} {t : Terminal} {u : String × List (Val V)}
    (hu : u ∈ (a.stmt t).userWhere) : a.userFlag = true ∧ (a.userWhere, a.userValues) = u := by
  by_cases ht : (t.filters && a.userFlag) = true
  · rw [Bool.and_eq_true] at ht
    refine ⟨ht.2, ?_⟩
    simpa [stmt, ht] using hu
  · simp [stmt, ht] at hu

/-- Plain texts leave no `?` in the names of any statement of the accessor, and
    its where text balanced. -/
theorem Accessor.Plain.stmt_plain {a : Accessor V} (h : a.Plain) {t : Terminal} (ht : t.Plain) :
    (a.stmt t).nameMarks = 0 ∧ (a.stmt t).Balanced := by
  have hzero : ∀ {α : Type} (l : List α) (f : α → Nat), (∀ x ∈ l, f x = 0) → (l.map f).sum = 0 := by
    intro α l f hl
    refine List.sum_eq_zero_iff_forall_eq_nat.mpr fun n hn => ?_
    obtain ⟨x, hx, rfl⟩ := List.mem_map.mp hn
    exact hl x hx
  have hconds : (a.stmt t).condMarks = 0 := by
    refine hzero _ _ fun c hc => ?_
    obtain ⟨f, hf, rfl⟩ := mem_stmt_conds hc
    rw [cond, h.mapping.marks_toDb, h.ops f hf]
  have hsets : (a.stmt t).setMarks = 0 := by
    refine hzero _ _ fun p hp => ?_
    obtain ⟨s, -, rfl⟩ := mem_stmt_sets hp
    exact h.mapping.marks_toDb s.1
  have horder : (a.stmt t).orderMarks = 0 := by
    refine hzero _ _ fun p hp => ?_
    obtain ⟨s, hs, rfl⟩ := mem_stmt_orderBy hp
    rw [h.mapping.marks_toDb, h.sorts s hs]
  have htable : marks (a.stmt t).table = 0 := h.mapping.1
  refine ⟨?_, ?_⟩
  · rw [Stmt.nameMarks, htable, hconds, hsets, horder]
    cases t with
    | findAll =>
      have hfields : ((a.loadFields.map a.mapping.toDb).map marks).sum = 0 := by
        refine hzero _ _ fun c hc => ?_
        obtain ⟨f, -, rfl⟩ := List.mem_map.mp hc
        exact h.mapping.marks_toDb f
      simp only [stmt, verb, hfields]
    | sum field | max field | min field =>
      simp only [stmt, verb, h.mapping.marks_toDb]
      decide
    | insert type =>
      have hplain : marks type = 0 := ht
      simp only [stmt, verb, hplain]
    | count | update | delete => rfl
  · intro u hu
    obtain ⟨hflag, rfl⟩ := mem_stmt_userWhere hu
    exact h.where_balanced hflag

/-- The values of the filters, and those of the where text. -/
def Accessor.filterValues (a : Accessor V) : List (Val V) :=
  a.filters.toList.flatMap fun f => f.2.2.values
def Accessor.whereBinds (a : Accessor V) : List (Val V) := if a.userFlag then a.userValues else []

/-- What a builder call adds to each source of values. -/
theorem Builder.after_values (a : Accessor V) (b : Builder V) :
    (b.after a).setFields = b.assign a.setFields ∧
      (b.after a).filterValues = a.filterValues ++ b.filterValues ∧
      (b.after a).whereBinds = b.whereBinds a.whereBinds := by
  have hpush : ∀ name op value,
      (a.filterByOp name op value).filterValues = a.filterValues ++ value.values := by
    intro name op value
    simp [Accessor.filterValues, Accessor.filterByOp]
  cases b with
  | filter name value =>
    rcases value with v | (_ | ⟨v, vs⟩)
    · exact ⟨rfl, hpush name "=" (.scalar v), rfl⟩
    · exact ⟨rfl, (List.append_nil _).symm, rfl⟩
    · exact ⟨rfl, hpush name "in" (.list (v :: vs)), rfl⟩
  | filterByOp name op value => exact ⟨rfl, hpush name op value, rfl⟩
  | _ => exact ⟨rfl, (List.append_nil _).symm, rfl⟩

theorem foldl_after_values (bs : List (Builder V)) (a : Accessor V) :
    (bs.foldl Builder.after a).setFields = bs.foldl Builder.assign a.setFields ∧
      (bs.foldl Builder.after a).filterValues = a.filterValues ++ bs.flatMap Builder.filterValues ∧
      (bs.foldl Builder.after a).whereBinds = bs.foldl Builder.whereBinds a.whereBinds := by
  induction bs generalizing a with
  | nil => exact ⟨rfl, (List.append_nil _).symm, rfl⟩
  | cons b bs ih =>
    obtain ⟨hsets, hfilters, hwhere⟩ := ih (b.after a)
    obtain ⟨hsets', hfilters', hwhere'⟩ := b.after_values a
    rw [List.foldl_cons, hsets, hfilters, hwhere, hsets', hfilters', hwhere', List.append_assoc]
    exact ⟨rfl, rfl, rfl⟩

/-- The values of a statement, by their source. -/
theorem Accessor.stmt_values (a : Accessor V) (t : Terminal) :
    (a.stmt t).values =
      (if t.assigns then a.setFields.map Prod.snd else []) ++
        (if t.filters then a.filterValues ++ a.whereBinds else []) := by
  have hconds : (a.filters.toList.map (Accessor.cond a.mapping)).flatMap (fun c => c.operand.values) =
      a.filterValues := by
    rw [List.flatMap_map]
    rfl
  have hwhere : (((if a.userFlag then some (a.userWhere, a.userValues) else none).map Prod.snd).getD
      [] : List (Val V)) = a.whereBinds := by
    unfold Accessor.whereBinds
    cases a.userFlag <;> rfl
  cases t <;>
    simp only [Accessor.stmt, Accessor.verb, Stmt.values, Stmt.setValues, Stmt.whereValues,
      Terminal.assigns, Terminal.filters, Bool.true_and, if_true, Bool.false_eq_true, if_false,
      List.map_map, Function.comp_def, List.append_nil, List.nil_append, hconds, hwhere]

/-- The values of a statement are those its builder calls supply. -/
theorem values_built (cls : ModelClass V) (suffix : String) (bs : List (Builder V)) (t : Terminal) :
    ((built cls suffix bs).stmt t).values = expectedValues bs t := by
  obtain ⟨hsets, hfilters, hwhere⟩ := foldl_after_values bs (Accessor.fresh cls suffix)
  rw [Accessor.stmt_values, built, hsets, hfilters, hwhere]
  rfl

variable [PhpScalar V] {W : Type}

/-- After builder calls on a fresh accessor and one terminal call, `sql` spells
    the statement with its values in place, and `pdo_values` are these values:
    assignments, filters in the order of their calls, values of the where text. -/
theorem terminal_spells (h : Outside V W) (cls : ModelClass V) (suffix : String) (st : Statics)
    (w : W) (bs : List (Builder V)) (t : Terminal) (hm : (cls.getMapping suffix).Plain)
    (hop : ∀ b ∈ bs, b.PlainOp) (hbal : ∀ b ∈ bs, b.Balanced) (hsort : ∀ b ∈ bs, b.PlainSort)
    (ht : t.Plain) :
    let a := (run (queryStep h) (opened cls suffix st w) (bs.map .build ++ [.terminal t])).1.this
    ((built cls suffix bs).stmt t).template.Spells a.sql a.pdoValues ∧
      a.pdoValues = expectedValues bs t := by
  intro a
  have hbuilders : builders (bs.map QueryCall.build) = bs := by
    clear hop hbal hsort a
    induction bs with
    | nil => rfl
    | cons b bs ih => exact congrArg (b :: ·) ih
  have hbound : ∀ bs' : List (Builder V), boundBy cls suffix bs' (bs.map QueryCall.build) = [] := by
    clear hop hbal hsort hbuilders a
    induction bs with
    | nil => exact fun _ => rfl
    | cons b bs ih => exact fun bs' => ih (bs' ++ [b])
  obtain ⟨hsql, hvalues⟩ := prepared_after h cls suffix st w (bs.map .build) t
  rw [hbuilders] at hsql hvalues
  replace hvalues : a.pdoValues = ((built cls suffix bs).stmt t).values := by
    rw [hvalues, hbound, List.nil_append]
  obtain ⟨hnames, huser⟩ := (built_plain hm hop hsort hbal).stmt_plain ht
  refine ⟨?_, by rw [hvalues, values_built]⟩
  have hspells := (Stmt.clean_template hnames huser).spells
  rw [Stmt.holes_template huser, ← hvalues] at hspells
  exact hsql ▸ hspells

end

/-- A list of filters, an assignment and a where text of the caller's, in one
    `update`. -/
theorem terminal_spells_update :
    let bs : List (Builder String) :=
      [.filter "id" (.list [some "7", some "8"]), .setField "name" (some "a"),
        .userDefineWhere "state > ?" [some "2"], .filterByOp "state" "<" (.scalar (some "5"))]
    let a := (run (queryStep emptyOutside) (opened userClass "" {} ())
      (bs.map .build ++ [.terminal .update])).1.this
    ((built userClass "" bs).stmt .update).template.Spells a.sql a.pdoValues ∧
      a.pdoValues = [some "a", some "7", some "8", some "5", some "2"] :=
  terminal_spells emptyOutside userClass "" {} () _ .update (by decide) (by decide) (by decide)
    (by decide) trivial

/-- A direction of `sort` with a `?` of its own leaves that `?` without a value. -/
theorem sort_mark_unbound :
    let bs : List (Builder String) := [.sort "id" "?"]
    let a := (run (queryStep emptyOutside) (opened userClass "" {} ())
      (bs.map .build ++ [.terminal .findAll])).1.this
    (userClass.getMapping "").Plain ∧ (∀ b ∈ bs, b.PlainOp) ∧ (∀ b ∈ bs, b.Balanced) ∧
      marks a.sql ≠ a.pdoValues.length := by
  intro bs a
  refine ⟨by decide, by decide, by decide, ?_⟩
  obtain ⟨hsql, hvalues⟩ :=
    prepared_after emptyOutside userClass "" {} () (bs.map QueryCall.build) .findAll
  have hcount := ((built userClass "" bs).stmt .findAll).marks_text
  have hnames : ((built userClass "" bs).stmt .findAll).nameMarks = 1 := by decide
  have hnone : ((built userClass "" bs).stmt .findAll).values = [] := by decide
  have huser : ((built userClass "" bs).stmt .findAll).userCount = 0 := by decide
  have hpdo : a.pdoValues = [] := hvalues.trans (congrArg ([] ++ ·) hnone)
  have hmarks : marks a.sql = marks ((built userClass "" bs).stmt .findAll).text := congrArg marks hsql
  rw [hpdo, hmarks, List.length_nil]
  omega

end RubbishStore.Pdo
