import Mathlib.Data.Int.Order.Basic
import RubbishStore.Lib.Heap

/- The linked lists of `c/algorithm`: the node type and the two functions that
   `SingleLinkList.c` and `LoopLiknList.c` both contain, word for word; only the
   node `main` begins with differs. `malloc` always succeeds and nothing is freed.
   An access outside the heap is undefined behaviour, `none` here. An `int` is an
   `Int`: `position` stays between 0 and its bound, and `num - 1` is exact above
   INT_MIN. -/
namespace RubbishStore.Algorithm
open RubbishStore.Lib

abbrev LinkListDataType : Type := Int

structure LinkListNode where
  data : LinkListDataType
  next : Option Addr
  deriving DecidableEq, Repr

/-- A pointer to a node, or NULL. -/
abbrev LinkList : Type := Option Addr

abbrev Nodes : Type := Heap LinkListNode

/-- `list->next` of each node. -/
abbrev nexts (h : Nodes) : Addr → Option LinkList := h.field LinkListNode.next

/-- `list->data` of each node. -/
abbrev datas (h : Nodes) : Addr → Option LinkListDataType := h.field LinkListNode.data

/-- The new node's fields are written before they are read. -/
def malloc (h : Nodes) : Addr × Nodes := (h.fresh, h.push ⟨0, none⟩)

/-- `list->data = data` -/
def setData (h : Nodes) (a : Addr) (data : LinkListDataType) : Option Nodes := do
  h.store a { ← h.load a with data := data }

/-- `list->next = next` -/
def setNext (h : Nodes) (a : Addr) (next : LinkList) : Option Nodes := do
  h.store a { ← h.load a with next := next }

/-- `while (list && position < bound) { list = list->next; position++; }`, for at
    most `fuel` rounds. -/
def walkLoop (h : Nodes) (bound : Int) : Nat → LinkList → Int → Option (LinkList × Int)
  | 0, list, position => some (list, position)
  | _ + 1, none, position => some (none, position)
  | fuel + 1, some a, position =>
    if position < bound then do
      walkLoop h bound fuel (← nexts h a) (position + 1)
    else some (some a, position)

/-- The loop from position 0: each round takes the position nearer to the bound. -/
def walkTo (h : Nodes) (list : LinkList) (bound : Int) : Option (LinkList × Int) :=
  walkLoop h bound bound.toNat list 0

def addSingleLinkListData (h : Nodes) (list : LinkList) (num : Int) (data : LinkListDataType) :
    Option (Bool × Nodes) := do
  let (list, position) ← walkTo h list (num - 1)
  match list with
  | none => return (false, h)
  | some list =>
    if position > num - 1 then return (false, h)
    else
      let (p, h) := malloc h
      let h ← setData h p data
      let h ← setNext h p (← nexts h list)
      let h ← setNext h list (some p)
      return (true, h)

/-- What is returned, and what `*data` holds afterwards. -/
def getSingleLinkListData (h : Nodes) (list : LinkList) (num : Int) (data : LinkListDataType) :
    Option (Bool × LinkListDataType) := do
  let (list, position) ← walkTo h list num
  match list with
  | none => return (false, data)
  | some list =>
    if position > num then return (false, data)
    else return (true, ← datas h list)

/-- A sequence of additions to one list: what each returned, and the heap. -/
def addAll (list : LinkList) : Nodes → List (Int × LinkListDataType) → Option (List Bool × Nodes)
  | h, [] => some ([], h)
  | h, (num, data) :: calls => do
    let (added, h) ← addSingleLinkListData h list num data
    let (rest, h) ← addAll list h calls
    return (added :: rest, h)

/-- `main`'s first node: with `next` null the empty list, with `next` itself the
    empty ring. -/
def newHead (next : LinkList) : Nodes := ⟨[⟨0, next⟩]⟩

variable {h h' : Nodes} {list : LinkList} {num : Int} {a : Addr} {d : LinkListDataType}

/-! The walk. -/

theorem walkLoop_eq (bound : Int) (fuel : Nat) (list : LinkList) (position : Int)
    (hfuel : (bound - position).toNat = fuel) :
    walkLoop h bound fuel list position =
      (walk (nexts h) fuel list).map fun r => (r.1, position + r.2) := by
  induction fuel generalizing list position with
  | zero => simp [walkLoop]
  | succ fuel ih =>
    have hlt : position < bound := by omega
    cases list with
    | none => simp [walkLoop]
    | some a =>
      rw [walkLoop, if_pos hlt]
      cases hnext : nexts h a with
      | none => simp [walk, hnext]
      | some p =>
        rw [walk_node (nexts h) hnext]
        show walkLoop h bound fuel p (position + 1) = _
        rw [ih p (position + 1) (by omega)]
        cases walk (nexts h) fuel p with
        | none => rfl
        | some r =>
          have hsum : position + 1 + (r.2 : Int) = position + ((r.2 + 1 : Nat) : Int) := by omega
          exact congrArg (fun i => some (r.1, i)) hsum

/-- The loop has as many rounds as it needs: it follows pointers until it has
    followed `bound` of them or is at null. -/
theorem walkTo_eq (bound : Int) :
    walkTo h list bound = (walk (nexts h) bound.toNat list).map fun r => (r.1, (r.2 : Int)) := by
  rw [walkTo, walkLoop_eq bound bound.toNat list 0 (by omega)]
  simp only [Int.zero_add]

/-! What an addition does, by where the walk ends. -/

theorem add_nonpos (hnum : num < 1) : addSingleLinkListData h list num d = some (false, h) := by
  have hzero : (num - 1).toNat = 0 := by omega
  have hpos : (0 : Int) > num - 1 := by omega
  rw [addSingleLinkListData, walkTo_eq, hzero, walk_zero]
  cases list with
  | none => rfl
  | some a => exact if_pos hpos

theorem add_null {k : Nat} (hwalk : walk (nexts h) (num - 1).toNat list = some (none, k)) :
    addSingleLinkListData h list num d = some (false, h) := by
  rw [addSingleLinkListData, walkTo_eq, hwalk]
  rfl

/-- The heap after `d` has been linked in behind the node at `a`. -/
def linked (h : Nodes) (a : Addr) (d : LinkListDataType) : Nodes :=
  match h.load a with
  | none => h
  | some node => (h.push ⟨d, node.next⟩).set a ⟨node.data, some h.fresh⟩

theorem linked_eq {node : LinkListNode} (hload : h.load a = some node) :
    linked h a d = (h.push ⟨d, node.next⟩).set a ⟨node.data, some h.fresh⟩ := by
  rw [linked, hload]

theorem add_linked {node : LinkListNode} (hnum : 1 ≤ num) (hload : h.load a = some node)
    (hwalk : walk (nexts h) (num - 1).toNat list = some (some a, (num - 1).toNat)) :
    addSingleLinkListData h list num d = some (true, linked h a d) := by
  have hat : ¬ ((num - 1).toNat : Int) > num - 1 := by omega
  have hlt : a < h.fresh := Heap.load_lt hload
  have hdata : setData (h.push ⟨0, none⟩) h.fresh d = some (h.push ⟨d, none⟩) := by
    rw [setData, Heap.load_push_new]
    exact Heap.store_push_new _ _ _
  have hnext : nexts (h.push ⟨d, none⟩) a = some node.next := by
    apply Heap.field_eq
    rw [Heap.load_push hlt, hload]
  have hback : setNext (h.push ⟨d, none⟩) h.fresh node.next = some (h.push ⟨d, node.next⟩) := by
    rw [setNext, Heap.load_push_new]
    exact Heap.store_push_new _ _ _
  have hlink : setNext (h.push ⟨d, node.next⟩) a (some h.fresh) = some (linked h a d) := by
    rw [setNext, Heap.load_push hlt, hload, linked_eq hload]
    apply Heap.store_eq
    rw [Heap.fresh_push]
    exact Nat.lt_succ_of_lt hlt
  rw [addSingleLinkListData, walkTo_eq, hwalk]
  show (if ((num - 1).toNat : Int) > num - 1 then _ else _) = _
  rw [if_neg hat]
  simp only [hdata, hnext, hback, hlink, Option.bind_eq_bind, Option.bind_some]
  rfl

/-! What the new heap holds. -/

section
variable {node : LinkListNode} (hload : h.load a = some node)
include hload

theorem load_linked_self : (linked h a d).load a = some ⟨node.data, some h.fresh⟩ := by
  rw [linked_eq hload]
  apply Heap.load_set_self
  rw [Heap.fresh_push]
  exact Nat.lt_succ_of_lt (Heap.load_lt hload)

theorem load_linked_new : (linked h a d).load h.fresh = some ⟨d, node.next⟩ := by
  rw [linked_eq hload, Heap.load_set_ne (Nat.ne_of_gt (Heap.load_lt hload))]
  exact Heap.load_push_new _ _

theorem load_linked_ne {b : Addr} (hne : b ≠ a) (hb : b < h.fresh) :
    (linked h a d).load b = h.load b := by
  rw [linked_eq hload, Heap.load_set_ne hne, Heap.load_push hb]

theorem nexts_linked_self : nexts (linked h a d) a = some (some h.fresh) :=
  Heap.field_eq _ (load_linked_self hload)

theorem nexts_linked_new : nexts (linked h a d) h.fresh = nexts h a :=
  (Heap.field_eq _ (load_linked_new hload)).trans (Heap.field_eq LinkListNode.next hload).symm

theorem nexts_linked_ne {b : Addr} (hne : b ≠ a) (hb : b < h.fresh) :
    nexts (linked h a d) b = nexts h b :=
  congrArg (Option.map _) (load_linked_ne hload hne hb)

theorem datas_linked_new : datas (linked h a d) h.fresh = some d :=
  Heap.field_eq _ (load_linked_new hload)

/-- No node that was there gets other data. -/
theorem datas_linked {b : Addr} (hb : b < h.fresh) : datas (linked h a d) b = datas h b := by
  by_cases hne : b = a
  · subst hne
    exact (Heap.field_eq _ (load_linked_self hload)).trans
      (Heap.field_eq LinkListNode.data hload).symm
  · exact congrArg (Option.map _) (load_linked_ne hload hne hb)

end

/-- A segment's distinct nodes, with a new node behind one of them. -/
theorem segment_linked {as bs : List Addr} {p q : LinkList}
    (hs : Segment (nexts h) p (as ++ a :: bs) q) (hnodup : (as ++ a :: bs).Nodup) :
    Segment (nexts (linked h a d)) p (as ++ a :: h.fresh :: bs) q ∧
      (as ++ a :: h.fresh :: bs).Nodup := by
  have hlt := Heap.segment_lt hs
  obtain ⟨r, -, -, p', hnext, -⟩ := segment_append.mp hs
  obtain ⟨node, hload, -⟩ := Heap.exists_load hnext
  have hother : ∀ b ∈ as ++ bs, b ≠ a ∧ b < h.fresh := by
    intro b hb
    have hmem : b ∈ as ++ a :: bs := by
      rcases List.mem_append.mp hb with hb | hb
      · exact List.mem_append_left _ hb
      · exact List.mem_append_right _ (List.mem_cons_of_mem a hb)
    refine ⟨?_, hlt b hmem⟩
    intro heq
    rw [heq] at hb
    exact (List.nodup_middle.mp hnodup).notMem hb
  refine ⟨?_, ?_⟩
  · exact hs.link (nexts_linked_self hload) (nexts_linked_new hload)
      fun b hb => nexts_linked_ne hload (hother b hb).1 (hother b hb).2
  · have hnew : h.fresh ∉ as ++ a :: bs := fun hmem => Nat.lt_irrefl _ (hlt _ hmem)
    rw [← List.singleton_append, ← List.append_assoc] at hnodup hnew ⊢
    exact List.nodup_middle.mpr (List.nodup_cons.mpr ⟨hnew, hnodup⟩)

/-- Behind the first `n` nodes after the head: which node is reached there, and
    the nodes once another one is linked in behind it. -/
theorem segment_insert {head n : Nat} {nodes : List Addr} {q : LinkList}
    (hs : Segment (nexts h) (some head) (head :: nodes) q) (hnodup : (head :: nodes).Nodup)
    (hn : n ≤ nodes.length) :
    ∃ b node, walk (nexts h) n (some head) = some (some b, n) ∧ h.load b = some node ∧
      Segment (nexts (linked h b d)) (some head)
        (head :: (nodes.take n ++ h.fresh :: nodes.drop n)) q ∧
      (head :: (nodes.take n ++ h.fresh :: nodes.drop n)).Nodup := by
  obtain ⟨as, b, hsplit⟩ : ∃ as b, head :: nodes.take n = as ++ [b] := by
    rcases List.eq_nil_or_concat (head :: nodes.take n) with hnil | ⟨as, b, hconcat⟩
    · exact absurd hnil (List.cons_ne_nil _ _)
    · exact ⟨as, b, hconcat.trans List.concat_eq_append⟩
  have hlen : as.length = n := by
    have hlengths := congrArg List.length hsplit
    rw [List.length_cons, List.length_take, List.length_append, List.length_singleton] at hlengths
    omega
  have hnodes : head :: nodes = as ++ b :: nodes.drop n := by
    rw [← List.singleton_append (x := b), ← List.append_assoc, ← hsplit, List.cons_append,
      List.take_append_drop]
  have hinserted : head :: (nodes.take n ++ h.fresh :: nodes.drop n) =
      as ++ b :: h.fresh :: nodes.drop n := by
    rw [← List.singleton_append (x := b), ← List.append_assoc, ← hsplit, List.cons_append]
  rw [hnodes] at hs hnodup
  obtain ⟨r, -, -, p, hnext, -⟩ := segment_append.mp hs
  obtain ⟨node, hload, -⟩ := Heap.exists_load hnext
  have hwalk := walk_to hs
  rw [hlen] at hwalk
  obtain ⟨hs', hnodup'⟩ := segment_linked (d := d) hs hnodup
  rw [hinserted]
  exact ⟨b, node, hwalk, hload, hs', hnodup'⟩

/-- The data behind the head, once a new node is among the nodes. -/
theorem datas_insert {nodes : List Addr} {data : List LinkListDataType} {node : LinkListNode}
    (hlt : ∀ b ∈ nodes, b < h.fresh) (hload : h.load a = some node)
    (hholds : nodes.map (datas h) = data.map some) (n : Nat) (d : LinkListDataType) :
    (nodes.take n ++ h.fresh :: nodes.drop n).map (datas (linked h a d)) =
      (data.take n ++ d :: data.drop n).map some := by
  have hkept : ∀ part : List Addr, (∀ b ∈ part, b ∈ nodes) →
      part.map (datas (linked h a d)) = part.map (datas h) := by
    intro part hpart
    exact List.map_congr_left fun b hb => datas_linked hload (hlt b (hpart b hb))
  rw [List.map_append, List.map_cons, hkept _ fun b => List.mem_of_mem_take,
    hkept _ fun b => List.mem_of_mem_drop, datas_linked_new hload, List.map_take,
    List.map_drop, hholds, List.map_append, List.map_cons, List.map_take, List.map_drop]

/-! What reading a position gives, by where the walk ends. -/

theorem get_negative (hnum : num < 0) :
    getSingleLinkListData h list num d = some (false, d) := by
  have hzero : num.toNat = 0 := by omega
  have hpos : (0 : Int) > num := hnum
  rw [getSingleLinkListData, walkTo_eq, hzero, walk_zero]
  cases list with
  | none => rfl
  | some a => exact if_pos hpos

theorem get_reached {found : LinkListDataType} (hnum : 0 ≤ num)
    (hwalk : walk (nexts h) num.toNat list = some (some a, num.toNat))
    (hdata : datas h a = some found) :
    getSingleLinkListData h list num d = some (true, found) := by
  have hat : ¬ (num.toNat : Int) > num := by omega
  rw [getSingleLinkListData, walkTo_eq, hwalk]
  show (if (num.toNat : Int) > num then _ else _) = _
  rw [if_neg hat, hdata]
  rfl

/-! Sequences of additions. -/

/-- What every call does to a description of the heap and what it adds to the result,
    a sequence of calls does. -/
theorem addAll_run {σ : Type} {I : Nodes → σ → Prop}
    {Q : σ → List (Int × LinkListDataType) → List Bool → σ → Prop} (hnil : ∀ s, Q s [] [] s)
    (hadd : ∀ h s, I h s → ∀ num d, ∃ added h₁ s₁,
      addSingleLinkListData h list num d = some (added, h₁) ∧ I h₁ s₁ ∧
        ∀ calls results s', Q s₁ calls results s' → Q s ((num, d) :: calls) (added :: results) s')
    {s : σ} (hI : I h s) (calls : List (Int × LinkListDataType)) :
    ∃ results h' s', addAll list h calls = some (results, h') ∧ I h' s' ∧ Q s calls results s' := by
  induction calls generalizing h s with
  | nil => exact ⟨[], h, s, rfl, hI, hnil s⟩
  | cons call calls ih =>
    obtain ⟨added, h₁, s₁, hcall, hI₁, hQ⟩ := hadd h s hI call.1 call.2
    obtain ⟨results, h', s', hrest, hI', hQ'⟩ := ih hI₁
    refine ⟨added :: results, h', s', ?_, hI', hQ calls results s' hQ'⟩
    rw [addAll, hcall]
    simp [hrest]

/-- What a call of `addSingleLinkListData` makes of the elements. -/
def Grows (elements : List LinkListDataType) (added : Bool) (d : LinkListDataType)
    (elements' : List LinkListDataType) : Prop :=
  if added then ∃ n, elements' = elements.take n ++ d :: elements.drop n else elements' = elements

theorem Grows.length_eq {elements elements' : List LinkListDataType} {added : Bool}
    (hg : Grows elements added d elements') :
    elements'.length = elements.length + [added].count true := by
  cases added with
  | false =>
    obtain rfl : elements' = elements := hg
    rfl
  | true =>
    obtain ⟨n, rfl⟩ := hg
    rw [List.length_append, List.length_cons, List.length_take, List.length_drop]
    show min n elements.length + (elements.length - n + 1) = elements.length + 1
    omega

theorem Grows.mem {elements elements' : List LinkListDataType} {added : Bool}
    (hg : Grows elements added d elements') {x : LinkListDataType} (hx : x ∈ elements') :
    x ∈ elements ∨ x = d := by
  cases added with
  | false =>
    obtain rfl : elements' = elements := hg
    exact Or.inl hx
  | true =>
    obtain ⟨n, rfl⟩ := hg
    rcases List.mem_append.mp hx with hx | hx
    · exact Or.inl (List.mem_of_mem_take hx)
    · rcases List.mem_cons.mp hx with rfl | hx
      · exact Or.inr rfl
      · exact Or.inl (List.mem_of_mem_drop hx)

/-- If every call makes the elements grow, a sequence of calls leaves as many as were
    added, each of them by one of the calls. -/
theorem addAll_grows {I : Nodes → List LinkListDataType → Prop}
    (hadd : ∀ h elements, I h elements → ∀ num d, ∃ added h' elements',
      addSingleLinkListData h list num d = some (added, h') ∧ I h' elements' ∧
        Grows elements added d elements')
    {elements : List LinkListDataType} (hI : I h elements)
    (calls : List (Int × LinkListDataType)) :
    ∃ results h' elements', addAll list h calls = some (results, h') ∧ I h' elements' ∧
      elements'.length = elements.length + results.count true ∧
      ∀ x ∈ elements', x ∈ elements ∨ x ∈ calls.map Prod.snd := by
  refine addAll_run (Q := fun elements calls results elements' =>
    elements'.length = elements.length + results.count true ∧
      ∀ x ∈ elements', x ∈ elements ∨ x ∈ calls.map Prod.snd) ?_ ?_ hI calls
  · exact fun elements => ⟨rfl, fun x hx => Or.inl hx⟩
  · intro h elements hI num d
    obtain ⟨added, h₁, elements₁, hcall, hI₁, hg⟩ := hadd h elements hI num d
    refine ⟨added, h₁, elements₁, hcall, hI₁, fun calls results elements' hrest => ⟨?_, ?_⟩⟩
    · show elements'.length = elements.length + ([added] ++ results).count true
      rw [hrest.1, hg.length_eq, List.count_append, Nat.add_assoc]
    · intro x hx
      rw [List.map_cons]
      rcases hrest.2 x hx with hx₁ | hx₁
      · rcases hg.mem hx₁ with hold | rfl
        · exact Or.inl hold
        · exact Or.inr List.mem_cons_self
      · exact Or.inr (List.mem_cons_of_mem _ hx₁)

end RubbishStore.Algorithm
