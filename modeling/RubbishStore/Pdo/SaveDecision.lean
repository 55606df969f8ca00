import RubbishStore.Pdo.ObjectSteps

/- Whether `save` inserts or updates. `decides` is `save` up to that point. The loop
   over `$data` reuses `$key`, so the property tested for null is the last one that
   was assigned, and the primary key only where nothing was. -/
namespace RubbishStore.Pdo
open RubbishStore.Lib
open Method

section
variable {V : Type} [PhpScalar V]

namespace DataObject
variable (cls : ModelClass V)

/-- `save` up to its two returns: whether it goes on to `_insert`. -/
def decides (data : List (String × Val V)) : ObjM V Bool := do
  let s ← Method.get
  let key := (cls.mappingOf s.this).keyName
  let data := assocErase data key
  let (r, o) := cls.assignEach data s.this
  Method.modify fun s => { s with this := o }
  Method.lift r
  let s ← Method.get
  if s.this.isLoaded then
    let value ← Method.lift (cls.read s.this ((data.getLast?.map Prod.fst).getD key))
    pure value.isNone
  else pure true

theorem decides_eq (data : List (String × Val V)) :
    decides cls data = saving cls data (fun value => pure value.isNone) (pure true) := rfl

/-- What `decides` comes to; the data assigned so far stay, also where it raises. -/
theorem tree_decides (data : List (String × Val V)) (s : ObjSelf V) :
    tree (decides cls data) s =
      .ret (((saved cls data s.this).1.bind fun _ =>
          if (saved cls data s.this).2.isLoaded then
            (cls.read (saved cls data s.this).2 (tested cls data s.this)).map Option.isNone
          else .ok true),
        { s with this := (saved cls data s.this).2 }) := by
  rw [decides_eq, tree_saving]
  cases (saved cls data s.this).1 with
  | error e => rfl
  | ok u =>
    rw [andThen_ok, tree_ite, Except.bind]
    cases (saved cls data s.this).2.isLoaded with
    | false => rfl
    | true =>
      rw [tree_bind, tree_lift]
      cases cls.read (saved cls data s.this).2 (tested cls data s.this) with
      | error e => rfl
      | ok value => rfl

theorem tree_save_decides (data : List (String × Val V)) (s : ObjSelf V) :
    tree (save cls data) s =
      tree (decides cls data >>= fun inserting => if inserting then insert cls else update cls) s := by
  rw [tree_bind, tree_decides, Prog.bind_ret, save_eq, tree_saving]
  cases (saved cls data s.this).1 with
  | error e => rfl
  | ok u =>
    rw [andThen_ok, tree_ite, Except.bind]
    cases (saved cls data s.this).2.isLoaded with
    | false => rfl
    | true =>
      rw [tree_bind, tree_lift]
      cases cls.read (saved cls data s.this).2 (tested cls data s.this) with
      | error e => rfl
      | ok value => cases value <;> rfl

/-- The entry assigned last has its value when the loop is over. -/
theorem get_assignEach_getLast {cls : ModelClass V} {data : List (String × Val V)} {name : String}
    {value : Val V} (hlast : data.getLast? = some (name, value)) {o : Obj V}
    (hok : (cls.assignEach data o).1 = .ok ()) :
    (cls.assignEach data o).2.get name = value := by
  induction data generalizing o with
  | nil => cases hlast
  | cons d data ih =>
    obtain ⟨name', value'⟩ := d
    unfold ModelClass.assignEach ModelClass.assign at hok ⊢
    by_cases hname : name' ∈ assocKeys o.props ∨ name' ∈ (cls.mappingOf o).properties
    · simp only [if_pos hname] at hok ⊢
      cases data with
      | nil =>
        obtain ⟨rfl, rfl⟩ : name' = name ∧ value' = value := by simpa using hlast
        exact Obj.get_set_self o name' value'
      | cons d' data => exact ih (by simpa using hlast) hok
    · simp only [if_neg hname] at hok
      cases hok

/-- The last entry of the data (the key aside) is null just when the primary key is;
    without entries the key itself is tested, which has to be a property. -/
def LastAgrees (data : List (String × Val V)) (o : Obj V) : Prop :=
  match (assocErase data (cls.mappingOf o).keyName).getLast? with
  | none =>
    (cls.mappingOf o).keyName ∈ assocKeys o.props ∨
      (cls.mappingOf o).keyName ∈ (cls.mappingOf o).properties
  | some (_, value) => value.isNone = (o.get (cls.mappingOf o).keyName).isNone

/-- What is tested for null is null just when the key is, if `LastAgrees`. -/
theorem read_tested_iff {data : List (String × Val V)} {o : Obj V}
    (hok : (saved cls data o).1 = .ok ()) :
    (cls.read (saved cls data o).2 (tested cls data o)).map Option.isNone =
        .ok (o.get (cls.mappingOf o).keyName).isNone ↔ LastAgrees cls data o := by
  rw [LastAgrees, tested]
  cases hlast : (assocErase data (cls.mappingOf o).keyName).getLast? with
  | none =>
    -- nothing is assigned, and the key itself is read
    have hsaved : (saved cls data o).2 = o := by
      rw [saved, List.getLast?_eq_none_iff.mp hlast]
      rfl
    rw [hsaved, Option.map_none, Option.getD_none, ModelClass.read]
    split
    · next hmem => simp [hmem, Except.map]
    · next hmem => simp [hmem, Except.map]
  | some d =>
    obtain ⟨name, value⟩ := d
    have hvalue : (saved cls data o).2.get name = value := get_assignEach_getLast hlast hok
    have hmem : name ∈ assocKeys (saved cls data o).2.props :=
      keys_assignEach hok (.inl (List.mem_map_of_mem (List.mem_of_getLast? hlast)))
    rw [Option.map_some, Option.getD_some, ModelClass.read, if_pos (.inl hmem), hvalue]
    simp [Except.map]

/-- `save` inserts or updates as `decides` says and leaves the primary key to the
    write. It updates a loaded object with a primary key, and inserts any other, if
    and only if the data can be assigned and, on a loaded object, the last of them is
    null just when the primary key is. -/
theorem save_decides_iff (data : List (String × Val V)) (s : ObjSelf V) :
    let o := (saved cls data s.this).2
    let key := (cls.mappingOf s.this).keyName
    tree (save cls data) s =
      tree (decides cls data >>= fun inserting => if inserting then insert cls else update cls) s ∧
    o.get key = s.this.get key ∧
    (tree (decides cls data) s = .ret (.ok (!(o.isLoaded && (o.get key).isSome)), { s with this := o }) ↔
      (saved cls data s.this).1 = .ok () ∧ (o.isLoaded = true → LastAgrees cls data s.this)) := by
  intro o key
  have hkey : o.get key = s.this.get key := get_saved_key data s.this
  refine ⟨tree_save_decides cls data s, hkey, ?_⟩
  rw [tree_decides, hkey]
  cases hok : (saved cls data s.this).1 with
  | error e => simp [Except.bind]
  | ok u =>
    have hread := read_tested_iff cls hok
    show (.ret (if o.isLoaded then (cls.read o (tested cls data s.this)).map Option.isNone else .ok true,
      { s with this := o }) : Steps V (ObjSelf V) Bool) = _ ↔ _
    cases hloaded : o.isLoaded with
    | false => simp
    | true => simpa using hread

/-- A name that is not null, saved last on a loaded user without a key, has it updated;
    a state set to null, saved last on a loaded user with a key, has it inserted. -/
theorem save_decided_by_last :
    let unkeyed : Obj String := ann.set "id" none
    (unkeyed.isLoaded = true ∧
      tree (decides userClass [("name", some "bob")]) ⟨unkeyed, {}⟩ =
        .ret (.ok false, ⟨unkeyed.set "name" (some "bob"), {}⟩)) ∧
    (ann.isLoaded = true ∧ ann.get "id" = some "7" ∧
      tree (decides userClass [("name", some "bob"), ("state", none)]) ⟨ann, {}⟩ =
        .ret (.ok true, ⟨(ann.set "name" (some "bob")).set "state" none, {}⟩)) := by
  refine ⟨⟨by decide, ?_⟩, by decide, by decide, ?_⟩
  · rw [tree_decides]
    rfl
  · rw [tree_decides]
    rfl

end DataObject

end

end RubbishStore.Pdo
