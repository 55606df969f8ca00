import RubbishStore.Algorithm.LinkList

/- `LoopLiknList.c`: the list whose last node leads back to the head, begun as one
   node that leads to itself. The nodes are always one ring through the head
   (`IsRing`), so a walk never meets NULL and positions wrap around: an addition
   at `num` links the new node in behind the one `(num - 1) % (k + 1)` steps
   from the head, where `k` nodes have been added. -/
namespace RubbishStore.Algorithm
open RubbishStore.Lib

/-- The nodes lead from the head back to the head. -/
structure IsRing (h : Nodes) (head : Addr) (nodes : List Addr) : Prop where
  path : Segment (nexts h) (some head) (head :: nodes) (some head)
  distinct : (head :: nodes).Nodup

/-- `new` has been linked in behind `b`: nothing else has changed. -/
structure LinkedBehind (h h' : Nodes) (nodes : List Addr) (b new : Addr) (d : LinkListDataType) :
    Prop where
  fresh : new ∉ nodes
  behind : nexts h' b = some (some new)
  onward : nexts h' new = nexts h b
  holds : datas h' new = some d
  links : ∀ a ∈ nodes, a ≠ b → nexts h' a = nexts h a
  kept : ∀ a ∈ nodes, datas h' a = datas h a

namespace IsRing
variable {h : Nodes} {head : Addr} {nodes : List Addr}

theorem walk_wraps (hr : IsRing h head nodes) (n : Nat) :
    walk (nexts h) n (some head) =
      (walk (nexts h) (n % (nodes.length + 1)) (some head)).map fun r =>
        (r.1, n / (nodes.length + 1) * (nodes.length + 1) + r.2) := by
  have hrounds := walk_ring hr.path (n / (nodes.length + 1)) (n % (nodes.length + 1))
  rwa [List.length_cons, Nat.mul_comm, Nat.div_add_mod, Nat.mul_comm] at hrounds

/-- An addition at a positive position: where the walk gets to, and the ring then. -/
theorem insert (hr : IsRing h head nodes) {num : Int} (hnum : 1 ≤ num) (d : LinkListDataType) :
    let n := (num - 1).toNat % (nodes.length + 1)
    ∃ b node, walk (nexts h) n (some head) = some (some b, n) ∧ h.load b = some node ∧
      addSingleLinkListData h (some head) num d = some (true, linked h b d) ∧
      IsRing (linked h b d) head (nodes.take n ++ h.fresh :: nodes.drop n) := by
  intro n
  have hle : n ≤ nodes.length := Nat.lt_succ_iff.mp (Nat.mod_lt _ (Nat.succ_pos _))
  obtain ⟨b, node, hwalk, hload, hpath, hdistinct⟩ :=
    segment_insert (d := d) hr.path hr.distinct hle
  have hlong : walk (nexts h) (num - 1).toNat (some head) = some (some b, (num - 1).toNat) := by
    rw [hr.walk_wraps, hwalk, Option.map_some, Nat.mul_comm, Nat.div_add_mod]
  exact ⟨b, node, hwalk, hload, add_linked hnum hload hlong, hpath, hdistinct⟩

theorem add_pos (hr : IsRing h head nodes) {num : Int} (hnum : 1 ≤ num) (d : LinkListDataType) :
    ∃ h' b nodes', addSingleLinkListData h (some head) num d = some (true, h') ∧
      walk (nexts h) ((num - 1).toNat % (nodes.length + 1)) (some head) =
        some (some b, (num - 1).toNat % (nodes.length + 1)) ∧
      LinkedBehind h h' (head :: nodes) b h.fresh d ∧
      IsRing h' head nodes' ∧ nodes'.length = nodes.length + 1 := by
  obtain ⟨b, node, hwalk, hload, hadd, hr'⟩ := hr.insert hnum d
  have hlt := Heap.segment_lt hr.path
  refine ⟨linked h b d, b, _, hadd, hwalk, ?_, hr', ?_⟩
  · exact
      { fresh := fun hmem => Nat.lt_irrefl _ (hlt _ hmem)
        behind := nexts_linked_self hload
        onward := nexts_linked_new hload
        holds := datas_linked_new hload
        links := fun a ha hne => nexts_linked_ne hload hne (hlt a ha)
        kept := fun a ha => datas_linked hload (hlt a ha) }
  · rw [List.length_append, List.length_cons, List.length_take, List.length_drop]
    omega

/-- A call adds exactly at a positive position. -/
theorem add_cases (hr : IsRing h head nodes) (num : Int) (d : LinkListDataType) :
    ∃ h' nodes', addSingleLinkListData h (some head) num d = some (decide (1 ≤ num), h') ∧
      IsRing h' head nodes' ∧ nodes'.length = nodes.length + [decide (1 ≤ num)].count true := by
  by_cases hnum : 1 ≤ num
  · obtain ⟨h', b, nodes', hadd, -, -, hr', hlen'⟩ := hr.add_pos hnum d
    rw [decide_eq_true hnum]
    exact ⟨h', nodes', hadd, hr', hlen'⟩
  · rw [decide_eq_false hnum]
    exact ⟨h, nodes, add_nonpos (Int.not_le.mp hnum), hr, rfl⟩

theorem addAll_keeps (hr : IsRing h head nodes) (calls : List (Int × LinkListDataType)) :
    let results := calls.map fun call => decide (1 ≤ call.1)
    ∃ h' nodes', addAll (some head) h calls = some (results, h') ∧
      IsRing h' head nodes' ∧ nodes'.length = nodes.length + results.count true := by
  have hrun : ∃ results h' nodes', addAll (some head) h calls = some (results, h') ∧
      IsRing h' head nodes' ∧ results = calls.map (fun call => decide (1 ≤ call.1)) ∧
      nodes'.length = nodes.length + results.count true := by
    refine addAll_run (I := fun h nodes => IsRing h head nodes)
      (Q := fun nodes calls results nodes' =>
        results = calls.map (fun call => decide (1 ≤ call.1)) ∧
          nodes'.length = nodes.length + results.count true)
      (fun nodes => ⟨rfl, rfl⟩) ?_ hr calls
    intro h nodes hr num d
    obtain ⟨h₁, nodes₁, hadd, hr₁, hlen₁⟩ := hr.add_cases num d
    refine ⟨_, h₁, nodes₁, hadd, hr₁, fun calls results nodes' hrest => ⟨?_, ?_⟩⟩
    · rw [hrest.1, List.map_cons]
    · show nodes'.length = nodes.length + ([decide (1 ≤ num)] ++ results).count true
      rw [hrest.2, hlen₁, List.count_append, Nat.add_assoc]
  obtain ⟨results, h', nodes', hrun, hr', rfl, hlength⟩ := hrun
  exact ⟨h', nodes', hrun, hr', hlength⟩

end IsRing

theorem isRing_newHead : IsRing (newHead (some 0)) 0 [] :=
  ⟨⟨rfl, some 0, rfl, rfl⟩, List.nodup_singleton 0⟩

/-- Position 4 of a ring of two elements is behind the head again. -/
example : (addAll (some 0) (newHead (some 0)) [(1, 7), (2, 8), (4, 9), (0, 5)]).map
      (fun r => (r.1, r.2.cells)) =
    some ([true, true, true, false],
      [⟨0, some 3⟩, ⟨7, some 2⟩, ⟨8, some 0⟩, ⟨9, some 1⟩]) := by decide

end RubbishStore.Algorithm
