import RubbishStore.Algorithm.LoopLiknList

/- `DoubleLinkList.c`: the ring of `LoopLiknList.c` with a second pointer `before`
   in each node. An addition behind a node gives the new one that node's `next` and
   its `before`, and makes both of the node's pointers lead to the new one. So the
   two pointers of a node never differ: the heap is at all times that of the loop
   list with each `next` written twice (`add_twice`), and going back by `before` is
   going forward. That is a doubly linked ring up to one element and no longer
   (`doubleLinkList_iff`). -/
namespace RubbishStore.Algorithm.Double
open RubbishStore.Lib

structure LinkListNode where
  data : LinkListDataType
  next : Option Addr
  before : Option Addr
  deriving DecidableEq, Repr

abbrev Nodes : Type := Heap LinkListNode

/-- `list->next` of each node. -/
abbrev nexts (h : Nodes) : Addr → Option LinkList := h.field LinkListNode.next

/-- `list->before` of each node. -/
abbrev befores (h : Nodes) : Addr → Option LinkList := h.field LinkListNode.before

def malloc (h : Nodes) : Addr × Nodes := (h.fresh, h.push ⟨0, none, none⟩)

def setData (h : Nodes) (a : Addr) (data : LinkListDataType) : Option Nodes := do
  h.store a { ← h.load a with data := data }

def setNext (h : Nodes) (a : Addr) (next : LinkList) : Option Nodes := do
  h.store a { ← h.load a with next := next }

def setBefore (h : Nodes) (a : Addr) (before : LinkList) : Option Nodes := do
  h.store a { ← h.load a with before := before }

/-- `while (list && position < bound) { list = list->next; position++; }`, for at
    most `fuel` rounds. -/
def walkLoop (h : Nodes) (bound : Int) : Nat → LinkList → Int → Option (LinkList × Int)
  | 0, list, position => some (list, position)
  | _ + 1, none, position => some (none, position)
  | fuel + 1, some a, position =>
    if position < bound then do
      walkLoop h bound fuel (← nexts h a) (position + 1)
    else some (some a, position)

def walkTo (h : Nodes) (list : LinkList) (bound : Int) : Option (LinkList × Int) :=
  walkLoop h bound bound.toNat list 0

def addSingleLinkListData (h : Nodes) (list : LinkList) (num : Int) (data : LinkListDataType) :
    Option (Bool × Nodes) := do
  let (list, position) ← walkTo h list (num - 1)
  match list with
  | none => return (false, h)
  | some list =>
    if position > num - 1 then return (false, h)
    else
      let (p, h) := malloc h
      let h ← setData h p data
      let h ← setNext h p (← nexts h list)
      let h ← setBefore h p (← befores h list)
      let h ← setNext h list (some p)
      let h ← setBefore h list (some p)
      return (true, h)

/-- A sequence of additions to one list: what each returned, and the heap. -/
def addAll (list : LinkList) : Nodes → List (Int × LinkListDataType) → Option (List Bool × Nodes)
  | h, [] => some ([], h)
  | h, (num, data) :: calls => do
    let (added, h) ← addSingleLinkListData h list num data
    let (rest, h) ← addAll list h calls
    return (added :: rest, h)

/-- `main`'s first node. -/
def newHead : Nodes := ⟨[⟨0, some 0, some 0⟩]⟩

/-- From the head along `next` and back to it there is a ring of nodes, each is
    what its successor has before it and its predecessor next to it, and `before`
    leads through them in the opposite order. -/
def Doubly (h : Nodes) (head : Addr) : Prop :=
  ∃ nodes, Segment (nexts h) (some head) (head :: nodes) (some head) ∧ (head :: nodes).Nodup ∧
    (∀ x ∈ head :: nodes,
      (∃ y, nexts h x = some (some y) ∧ befores h y = some (some x)) ∧
      ∃ y, befores h x = some (some y) ∧ nexts h y = some (some x)) ∧
    Segment (befores h) (some head) (head :: nodes.reverse) (some head)

/-! The heap is the loop list's, with each pointer twice. -/

/-- A node whose two pointers are the one of the loop list's node. -/
def twice (node : Algorithm.LinkListNode) : LinkListNode :=
  ⟨node.data, node.next, node.next⟩

variable {k : Algorithm.Nodes}

theorem nexts_twice (k : Algorithm.Nodes) (a : Addr) :
    nexts (k.map twice) a = Algorithm.nexts k a := Heap.field_map twice _ k a

theorem befores_twice (k : Algorithm.Nodes) (a : Addr) :
    befores (k.map twice) a = Algorithm.nexts k a := Heap.field_map twice _ k a

theorem walkLoop_twice (bound : Int) (fuel : Nat) (list : LinkList) (position : Int) :
    walkLoop (k.map twice) bound fuel list position =
      Algorithm.walkLoop k bound fuel list position := by
  induction fuel generalizing list position with
  | zero => rfl
  | succ fuel ih =>
    cases list with
    | none => rfl
    | some a => simp only [walkLoop, Algorithm.walkLoop, nexts_twice, ih]

theorem setData_twice (k : Algorithm.Nodes) (a : Addr) (d : LinkListDataType) :
    setData (k.map twice) a d = (Algorithm.setData k a d).map (Heap.map twice) := by
  cases hload : k.load a with
  | none => simp [setData, Algorithm.setData, hload]
  | some node =>
    simp only [setData, Algorithm.setData, Heap.load_map, hload, Option.map_some,
      Option.bind_eq_bind, Option.bind_some]
    exact Heap.store_map twice k a ⟨d, node.next⟩

/-- The two pointers of a node, written one after the other. -/
theorem setBoth_twice (k : Algorithm.Nodes) (a : Addr) (p : LinkList) :
    (setNext (k.map twice) a p).bind (fun h => setBefore h a p) =
      (Algorithm.setNext k a p).map (Heap.map twice) := by
  cases hload : k.load a with
  | none => simp [setNext, Algorithm.setNext, hload]
  | some node =>
    have ha : a < (k.map twice).fresh := by
      rw [Heap.fresh_map]
      exact Heap.load_lt hload
    have hnext : setNext (k.map twice) a p =
        some ((k.map twice).set a ⟨node.data, p, node.next⟩) := by
      simp only [setNext, Heap.load_map, hload, Option.map_some, Option.bind_eq_bind,
        Option.bind_some]
      exact Heap.store_eq ha _
    have hback : setBefore ((k.map twice).set a ⟨node.data, p, node.next⟩) a p =
        some ((k.map twice).set a (twice ⟨node.data, p⟩)) := by
      rw [setBefore, Heap.load_set_self ha]
      exact (Heap.store_eq (by simpa using ha) _).trans (congrArg some (Heap.set_set _ _ _ _))
    have hsingle : Algorithm.setNext k a p = some (k.set a ⟨node.data, p⟩) := by
      rw [Algorithm.setNext, hload]
      exact Heap.store_eq (Heap.load_lt hload) _
    rw [hnext, hsingle, Option.bind_some, hback, Option.map_some, Heap.map_set]

/-- Writing `next` leaves every `before`. -/
theorem befores_setNext {h h' : Nodes} {a : Addr} {p : LinkList} (hset : setNext h a p = some h')
    (b : Addr) : befores h' b = befores h b := by
  cases hload : h.load a with
  | none => simp [setNext, hload] at hset
  | some node =>
    have ha := Heap.load_lt hload
    simp only [setNext, hload, Option.bind_eq_bind, Option.bind_some, Heap.store_eq ha,
      Option.some.injEq] at hset
    subst hset
    by_cases hb : b = a
    · subst hb
      exact (Heap.field_eq _ (Heap.load_set_self ha _)).trans
        (Heap.field_eq LinkListNode.before hload).symm
    · exact congrArg (Option.map _) (Heap.load_set_ne hb _)

section
variable {α : Type} (go : Nodes → Option α)

theorem both_twice (k : Algorithm.Nodes) (a : Addr) (p : LinkList) :
    ((setNext (k.map twice) a p).bind fun h => (setBefore h a p).bind go) =
      (Algorithm.setNext k a p).bind fun k => go (k.map twice) := by
  rw [← Option.bind_assoc, setBoth_twice, Option.bind_map]
  rfl

/-- The second pointer is read, from any node, after the first one is written. -/
theorem bothFrom_twice {a b : Addr} {p : LinkList} (hb : Algorithm.nexts k b = some p) :
    ((setNext (k.map twice) a p).bind fun h =>
        (befores h b).bind fun q => (setBefore h a q).bind go) =
      (Algorithm.setNext k a p).bind fun k => go (k.map twice) := by
  rw [← both_twice]
  cases hset : setNext (k.map twice) a p with
  | none => rfl
  | some h =>
    have hback : befores h b = some p := by rw [befores_setNext hset, befores_twice, hb]
    rw [Option.bind_some, Option.bind_some, hback, Option.bind_some]

end

/-- The code of the doubly linked list does what the loop list's does. -/
theorem add_twice (k : Algorithm.Nodes) (list : LinkList) (num : Int) (d : LinkListDataType) :
    addSingleLinkListData (k.map twice) list num d =
      (Algorithm.addSingleLinkListData k list num d).map fun r => (r.1, r.2.map twice) := by
  have hwalk : walkTo (k.map twice) list (num - 1) = Algorithm.walkTo k list (num - 1) :=
    walkLoop_twice _ _ _ _
  rw [addSingleLinkListData, Algorithm.addSingleLinkListData, hwalk]
  cases Algorithm.walkTo k list (num - 1) with
  | none => rfl
  | some r =>
    obtain ⟨list, position⟩ := r
    cases list with
    | none => rfl
    | some b =>
      by_cases hpos : position > num - 1
      · simp only [hpos, if_true, Option.bind_eq_bind, Option.bind_some]
        rfl
      · have hpush : (k.map twice).push ⟨0, none, none⟩ = (k.push ⟨0, none⟩).map twice :=
          (Heap.map_push twice k ⟨0, none⟩).symm
        simp only [hpos, if_false, malloc, Algorithm.malloc, hpush, Heap.fresh_map,
          Option.bind_eq_bind, Option.bind_some, setData_twice]
        cases Algorithm.setData (k.push ⟨0, none⟩) k.fresh d with
        | none => rfl
        | some k₁ =>
          cases hnext : Algorithm.nexts k₁ b with
          | none => simp [nexts_twice, hnext]
          | some q =>
            simp only [Option.bind_some, Option.map_some, nexts_twice, hnext, bothFrom_twice _ hnext,
              both_twice, Option.map_bind, Function.comp_def]
            rfl

/-- So does a run of it. -/
theorem addAll_twice (list : LinkList) (k : Algorithm.Nodes)
    (calls : List (Int × LinkListDataType)) :
    addAll list (k.map twice) calls =
      (Algorithm.addAll list k calls).map fun r => (r.1, r.2.map twice) := by
  induction calls generalizing k with
  | nil => rfl
  | cons call calls ih =>
    rw [addAll, Algorithm.addAll, add_twice]
    cases Algorithm.addSingleLinkListData k list call.1 call.2 with
    | none => rfl
    | some r =>
      simp only [Option.map_some, Option.bind_eq_bind, Option.bind_some, ih]
      cases Algorithm.addAll list r.2 calls with
      | none => rfl
      | some r => rfl

/-! How long that is a doubly linked ring. -/

section
variable {head : Addr} {nodes : List Addr}

theorem befores_eq_nexts (k : Algorithm.Nodes) (a : Addr) :
    befores (k.map twice) a = nexts (k.map twice) a := by rw [befores_twice, nexts_twice]

/-- Behind the head and the only other node are these two again. -/
theorem doubly_of_short (hr : IsRing k head nodes) (hlen : nodes.length ≤ 1) :
    Doubly (k.map twice) head := by
  have hpath : Segment (nexts (k.map twice)) (some head) (head :: nodes) (some head) :=
    hr.path.congr fun a _ => nexts_twice k a
  have hback : Segment (befores (k.map twice)) (some head) (head :: nodes.reverse) (some head) := by
    have hreverse : nodes.reverse = nodes := by
      match nodes, hlen with
      | [], _ => rfl
      | [_], _ => rfl
    rw [hreverse]
    exact hpath.congr fun a _ => befores_eq_nexts k a
  refine ⟨nodes, hpath, hr.distinct, ?_, hback⟩
  simp only [befores_eq_nexts]
  suffices h : ∀ x ∈ head :: nodes, ∃ y, nexts (k.map twice) x = some (some y) ∧
      nexts (k.map twice) y = some (some x) from fun x hx => ⟨h x hx, h x hx⟩
  match nodes, hlen, hpath with
  | [], _, ⟨_, p, hp, hend⟩ =>
    obtain rfl : p = some head := hend
    simp [hp]
  | [a], _, ⟨_, p, hp, hpa, q, hq, hend⟩ =>
    obtain rfl : p = some a := hpa
    obtain rfl : q = some head := hend
    simp [hp, hq]

/-- With three nodes the head is not what its successor has before it. -/
theorem not_doubly_of_long (hr : IsRing k head nodes) (hlen : 2 ≤ nodes.length) :
    ¬ Doubly (k.map twice) head := by
  intro hd
  obtain ⟨a, b, rest, rfl⟩ : ∃ a b rest, nodes = a :: b :: rest := by
    match nodes, hlen with
    | a :: b :: rest, _ => exact ⟨a, b, rest, rfl⟩
  obtain ⟨others, -, -, hneighbours, -⟩ := hd
  obtain ⟨⟨y, hnext, hbefore⟩, -⟩ := hneighbours head List.mem_cons_self
  obtain ⟨-, p, hp, hpa, q, hq, hqb, -⟩ := hr.path
  have hy : y = a := by
    rw [nexts_twice, hp, hpa] at hnext
    simpa using hnext.symm
  have hhead : b = head := by
    rw [befores_twice, hy, hq, hqb] at hbefore
    simpa using hbefore
  have hfresh := (List.nodup_cons.mp hr.distinct).1
  rw [← hhead] at hfresh
  simp at hfresh

end

end RubbishStore.Algorithm.Double
