import RubbishStore.Pdo.Sessions

/- Several accessors in one process. `use_model` leaves its suffix in a static
   field of the accessor class, and `init_objs` constructs objects with the
   suffix it finds there. An object belongs to the shard its accessor reads when
   it carries the suffix that accessor was created with. -/
namespace RubbishStore.Pdo
open RubbishStore.Lib
open MysqlAccessor

section
variable {V : Type}

/-- An accessor and the suffix it was created with. -/
structure Opened (V : Type) where
  suffix : String
  accessor : Accessor V

/-- The accessors of a process, in the order of their creation, what they share,
    and the world around them. -/
structure Process (V W : Type) where
  accessors : List (Opened V) := []
  statics : Statics
  world : W

inductive Event (V : Type) where
  | useModel (cls : ModelClass V) (splitSuffix : String)
  | call (i : Nat) (c : Call V)

variable [PhpScalar V] {W : Type}

/-- Saving or deleting the object addresses the table, whatever the world. -/
def Addresses (cls : ModelClass V) (o : Obj V) (table : String) : Prop :=
  ∀ (W : Type) (h : Outside V W) (st : Statics) (w : W) (con : String) (sent : Sent V),
    ((∃ data, "splitSuffix" ∉ assocKeys data ∧
        .execute con sent ∈ Method.effects h (DataObject.save cls data) ⟨o, st⟩ w) ∨
      .execute con sent ∈ Method.effects h (DataObject.delete cls) ⟨o, st⟩ w) →
    sent.stmt.table = table ∧ sent.sql = sent.stmt.text

/-- Every object an accessor built carries the suffix the accessor was created
    with, and is written back to the table the accessor reads. -/
def ShardsRight (p : Process V W) : Prop :=
  ∀ x ∈ p.accessors, ∀ o ∈ x.accessor.built,
    o.splitSuffix = x.suffix ∧ Addresses x.accessor.model o x.accessor.mapping.table

/-- The static suffix is the one the accessor was created with whenever it
    loads, and its mapping lists no property of that name. -/
def LoadsOwnSuffix (p : Process V W) : Event V → Prop
  | .useModel _ _ => True
  | .call i c => ∀ x, p.accessors[i]? = some x → c.loads = true →
      p.statics.splitSuffix = x.suffix ∧ "splitSuffix" ∉ x.accessor.mapping.properties

variable [DecidableEq V]

def Process.step (h : Outside V W) (p : Process V W) : Event V → Process V W
  | .useModel cls splitSuffix =>
    match Method.exec h (useModel cls splitSuffix) p.statics p.world with
    | (.ok a, st, w) => ⟨p.accessors ++ [⟨splitSuffix, a⟩], st, w⟩
    | (.error _, st, w) => ⟨p.accessors, st, w⟩
  | .call i c =>
    match p.accessors[i]? with
    | none => p
    | some x =>
      let r := (Method.exec h c.method ⟨x.accessor, p.statics⟩ p.world).2
      ⟨p.accessors.set i ⟨x.suffix, r.1.this⟩, r.1.statics, r.2⟩

/-- What holds of every accessor of a process. -/
structure Opened.Right (x : Opened V) : Prop where
  mapping : x.accessor.mapping = x.accessor.model.getMapping x.suffix
  built : ∀ o ∈ x.accessor.built, o.splitSuffix = x.suffix

omit [DecidableEq V] in
/-- An object built under a suffix carries it. -/
theorem splitSuffix_of_builtBy {a : Accessor V} {st : Statics} {o : Obj V}
    (hmap : "splitSuffix" ∉ a.mapping.properties)
    (hcls : "splitSuffix" ∉ (a.model.getMapping st.splitSuffix).properties)
    (h : BuiltBy a st o) : o.splitSuffix = st.splitSuffix := by
  obtain ⟨obj, r, hc, rfl⟩ := h
  have hobj := ModelClass.get_splitSuffix_construct hcls hc
  unfold Obj.splitSuffix Accessor.fill
  rw [Obj.get_set_ne _ _ (by decide), Obj.get_foldl_set Prod.fst _ _ _ _ hmap, hobj]
  exact PhpScalar.toText_ofText _

omit [DecidableEq V] in
/-- An object with its accessor's suffix is written to its accessor's table. -/
theorem Opened.Right.addresses {x : Opened V} (hx : x.Right) {o : Obj V}
    (ho : o ∈ x.accessor.built) : Addresses x.accessor.model o x.accessor.mapping.table := by
  have hmapping : x.accessor.model.mappingOf o = x.accessor.mapping := by
    rw [hx.mapping, ModelClass.mappingOf, hx.built o ho]
  intro W h st w con sent hmem
  rcases hmem with ⟨data, hdata, hmem⟩ | hmem
  · rw [← hmapping]
    exact DataObject.execute_mem_save h _ hdata hmem
  · rw [DataObject.execute_mem_delete h _ hmem, ← hmapping]
    exact DataObject.sent_table _ _

/-- `use_model` opens an accessor on the mapping of its suffix. -/
theorem Process.step_useModel (h : Outside V W) (p : Process V W) (cls : ModelClass V)
    (splitSuffix : String) :
    p.step h (.useModel cls splitSuffix) =
      { p with
        accessors :=
          if (cls.getMapping splitSuffix).key = none then p.accessors
          else p.accessors ++ [⟨splitSuffix, Accessor.fresh cls splitSuffix⟩]
        statics := { p.statics with splitSuffix := splitSuffix } } := by
  simp only [step, DataObject.exec_useModel]
  by_cases hkey : (cls.getMapping splitSuffix).key = none
  · simp only [if_pos hkey]
  · simp only [if_neg hkey]

/-- One event keeps every accessor right, where loads find their own suffix. -/
theorem Process.step_right (h : Outside V W) (p : Process V W) (e : Event V)
    (hp : ∀ x ∈ p.accessors, x.Right) (he : LoadsOwnSuffix p e) :
    ∀ x ∈ (p.step h e).accessors, x.Right := by
  cases e with
  | useModel cls splitSuffix =>
    rw [step_useModel]
    intro x hx
    simp only at hx
    split at hx
    · exact hp x hx
    · rcases List.mem_append.mp hx with hx | hx
      · exact hp x hx
      · obtain rfl := List.mem_singleton.mp hx
        exact ⟨rfl, by simp [Accessor.fresh]⟩
  | call i c =>
    cases hi : p.accessors[i]? with
    | none =>
      simp only [step, hi]
      exact hp
    | some x =>
      simp only [step, hi]
      intro y hy
      have hx : x.Right := hp x (List.mem_of_getElem? hi)
      rcases List.mem_or_eq_of_mem_set hy with hy | rfl
      · exact hp y hy
      · have hleaves := c.steady W h ⟨x.accessor, p.statics⟩ p.world
        obtain ⟨objs, hbuilt, hby⟩ := hleaves.built
        refine ⟨?_, ?_⟩
        · show (Method.exec h c.method _ _).2.1.this.mapping =
            (Method.exec h c.method _ _).2.1.this.model.getMapping x.suffix
          rw [hleaves.mapping, hleaves.model]
          exact hx.mapping
        · intro o ho
          change o ∈ (Method.exec h c.method _ _).2.1.this.built at ho
          rw [hbuilt] at ho
          rcases List.mem_append.mp ho with ho | ho
          · exact hx.built o ho
          · -- built by this call: with the static suffix, the accessor's own
            obtain ⟨hloads, hby⟩ := hby o ho
            obtain ⟨hsuffix, hmap⟩ := he x hi hloads
            rw [← hsuffix]
            refine splitSuffix_of_builtBy hmap ?_ hby
            rw [hsuffix, ← hx.mapping]
            exact hmap

/-- In every run whose loads find their accessor's own suffix in the static
    field, every object carries its accessor's suffix and goes back to the table
    it was read from. -/
theorem shards_right (h : Outside V W) (st : Statics) (w : W) (es : List (Event V))
    (hes : AtEach (Process.step h) LoadsOwnSuffix ⟨[], st, w⟩ es) :
    ShardsRight (run (Process.step h) ⟨[], st, w⟩ es) := by
  have hright : ∀ x ∈ (run (Process.step h) ⟨[], st, w⟩ es).accessors, x.Right :=
    run_inv (I := fun p : Process V W => ∀ x ∈ p.accessors, x.Right) (by simp) hes
      fun p e hp he => p.step_right h e hp he
  intro x hx o ho
  exact ⟨(hright x hx).built o ho, (hright x hx).addresses ho⟩

/-- The static suffix is the one of the latest `use_model`. -/
theorem Process.run_splitSuffix (h : Outside V W) (p : Process V W) (es : List (Event V))
    (cls : ModelClass V) (splitSuffix : String) (calls : List (Nat × Call V)) :
    (run (Process.step h) p
      (es ++ .useModel cls splitSuffix :: calls.map fun c => .call c.1 c.2)).statics.splitSuffix =
      splitSuffix := by
  rw [run_append, run_cons]
  refine run_inv (I := fun q : Process V W => q.statics.splitSuffix = splitSuffix)
    (P := fun _ e => ∃ i c, e = .call i c) ?_ ?_ ?_
  · rw [step_useModel]
  · refine atEach_iff_split.mpr fun pre e post he => ?_
    have hmem : e ∈ calls.map fun c => Event.call c.1 c.2 := by rw [he]; simp
    obtain ⟨c, -, rfl⟩ := List.mem_map.mp hmem
    exact ⟨c.1, c.2, rfl⟩
  · rintro q e hq ⟨i, c, rfl⟩
    cases hi : q.accessors[i]? with
    | none => simpa only [step, hi] using hq
    | some x =>
      simp only [step, hi]
      exact (c.steady W h ⟨x.accessor, q.statics⟩ q.world).suffix.trans hq

end

/-- A row of the users' table. -/
def userRow : Fetched String := { rows := [[("user_id", some "7"), ("user_name", some "a")]] }

/-- Two accessors, each used before the other is created. -/
theorem shards_right_in_turn :
    ShardsRight (run (Process.step (steadyOutside userRow)) ⟨[], {}, ()⟩
      [.useModel userClass "_a", .call 0 (.query (.terminal .findAll)),
        .useModel userClass "_b", .call 1 (.query (.terminal .findAll))]) := by
  refine shards_right (steadyOutside userRow) {} () _ ⟨trivial, ?_, trivial, ?_, trivial⟩
  · intro x hx _
    cases hx
    exact ⟨rfl, by decide⟩
  · intro x hx _
    cases hx
    exact ⟨rfl, by decide⟩

/-- Two accessors created, the first one used: its object carries the suffix of
    the second. -/
theorem first_of_two_loads_wrong_suffix :
    ¬ ShardsRight (run (Process.step (steadyOutside userRow)) ⟨[], {}, ()⟩
      [.useModel userClass "_a", .useModel userClass "_b", .call 0 (.query (.terminal .findAll))]) := by
  intro hright
  have hsuffix := fun x hx o ho => (hright x hx o ho).1
  exact absurd hsuffix (by decide)

end RubbishStore.Pdo
