import RubbishStore.Algorithm.LoopLiknList
import RubbishStore.Algorithm.SingleLinkList

/- `getSingleLinkListData` at every position of both lists. Positions count from 1,
   but its test `position > num` only turns negative numbers away: position 0 is
   answered with the head, whose data nobody added. In the ring no walk meets NULL,
   so that the test for the end of the list does nothing either, and every position
   behind the last element is answered with some node, the head among them. -/
namespace RubbishStore.Algorithm
open RubbishStore.Lib

/-- The documented answer at a position, the elements being those added: TRUE only with
    the element there, and FALSE without writing `*data` where there is none. -/
def Counted (h : Nodes) (list : LinkList) (elements : List LinkListDataType) (num : Int) : Prop :=
  ∀ out, ∃ found data, getSingleLinkListData h list num out = some (found, data) ∧
    (found = true → 1 ≤ num ∧ elements[(num - 1).toNat]? = some data) ∧
    (¬ (1 ≤ num ∧ num ≤ elements.length) → found = false ∧ data = out)

/-- The nodes lead from the head to `last`; those behind the head hold the elements. -/
structure Chain (last : LinkList) (h : Nodes) (head : Addr) (nodes : List Addr)
    (elements : List LinkListDataType) : Prop where
  path : Segment (nexts h) (some head) (head :: nodes) last
  distinct : (head :: nodes).Nodup
  holds : nodes.map (datas h) = elements.map some

namespace Chain
variable {h : Nodes} {head : Addr} {nodes : List Addr} {elements : List LinkListDataType}
  {last : LinkList} {num : Int}

theorem length_eq (hc : Chain last h head nodes elements) : nodes.length = elements.length := by
  have hlen := congrArg List.length hc.holds
  rwa [List.length_map, List.length_map] at hlen

/-- Every node on the way holds data; those behind the head the elements. -/
theorem exists_data (hc : Chain last h head nodes elements) {n : Nat} (hn : n ≤ elements.length) :
    ∃ a d, (head :: nodes)[n]? = some a ∧ datas h a = some d ∧
      (1 ≤ n → elements[n - 1]? = some d) := by
  cases n with
  | zero =>
    obtain ⟨-, p, hnext, -⟩ := hc.path
    obtain ⟨node, hload, -⟩ := Heap.exists_load hnext
    exact ⟨head, node.data, rfl, Heap.field_eq _ hload, fun hn => absurd hn (by decide)⟩
  | succ n =>
    have hnodes : n < nodes.length := by
      rw [hc.length_eq]
      exact hn
    have hheld : (nodes.map (datas h))[n]? = (elements.map some)[n]? := by rw [hc.holds]
    rw [List.getElem?_map, List.getElem?_map, List.getElem?_eq_getElem hnodes,
      List.getElem?_eq_getElem hn] at hheld
    refine ⟨nodes[n], elements[n], ?_, Option.some.inj hheld, fun _ => ?_⟩
    · rw [List.getElem?_cons_succ, List.getElem?_eq_getElem hnodes]
    · rw [Nat.add_sub_cancel, List.getElem?_eq_getElem hn]

/-- Up to the last element a position is answered with its node: the head at 0. -/
theorem get_upto (hc : Chain last h head nodes elements) (h0 : 0 ≤ num)
    (hle : num ≤ elements.length) (out : LinkListDataType) :
    ∃ d, getSingleLinkListData h (some head) num out = some (true, d) ∧
      (1 ≤ num → elements[(num - 1).toNat]? = some d) := by
  obtain ⟨a, d, hnode, hdata, hd⟩ := hc.exists_data (n := num.toNat) (by omega)
  refine ⟨d, get_reached h0 (walk_get hc.path hnode) hdata, fun hnum => ?_⟩
  rw [show (num - 1).toNat = num.toNat - 1 by omega]
  exact hd (by omega)

theorem counted (hc : Chain last h head nodes elements) (hne : num ≠ 0)
    (hle : num ≤ elements.length) : Counted h (some head) elements num := by
  intro out
  by_cases hneg : num < 0
  · refine ⟨false, out, get_negative hneg, fun hfound => absurd hfound Bool.false_ne_true, ?_⟩
    exact fun _ => ⟨rfl, rfl⟩
  · obtain ⟨d, hget, hd⟩ := hc.get_upto (Int.not_lt.mp hneg) hle out
    refine ⟨true, d, hget, fun _ => ⟨by omega, hd (by omega)⟩, fun hout => ?_⟩
    exact absurd ⟨by omega, hle⟩ hout

/-- Where a position is answered with TRUE, it is not counted unless an element is there. -/
theorem not_counted (hget : ∃ d, getSingleLinkListData h (some head) num 0 = some (true, d))
    (hout : ¬ (1 ≤ num ∧ num ≤ elements.length)) : ¬ Counted h (some head) elements num := by
  intro hcounted
  obtain ⟨d, hget⟩ := hget
  obtain ⟨found, data, hget', -, hfalse⟩ := hcounted 0
  rw [hget] at hget'
  obtain ⟨rfl, -⟩ := Prod.mk.inj (Option.some.inj hget')
  exact absurd (hfalse hout).1 (by decide)

theorem not_counted_zero (hc : Chain last h head nodes elements) :
    ¬ Counted h (some head) elements 0 := by
  obtain ⟨d, hget, -⟩ := hc.get_upto (Int.le_refl 0) (Int.natCast_nonneg _) 0
  exact not_counted ⟨d, hget⟩ fun hin => absurd hin.1 (by decide)

end Chain

/-! The list that ends. -/

section
variable {h : Nodes} {head : Addr} {elements : List LinkListDataType}

theorem list_counted_iff {nodes : List Addr} (hl : IsList h head nodes elements) (num : Int) :
    Counted h (some head) elements num ↔ num ≠ 0 := by
  have hc : Chain none h head nodes elements := ⟨hl.path, hl.distinct, hl.holds⟩
  refine ⟨fun hcounted hzero => ?_, fun hne => ?_⟩
  · subst hzero
    exact hc.not_counted_zero hcounted
  · by_cases hle : num ≤ elements.length
    · exact hc.counted hne hle
    · -- behind the last element the walk ends at NULL
      intro out
      have hnum : 1 ≤ num := by omega
      have hcases := hl.get_cases hnum out
      rw [if_neg hle] at hcases
      exact ⟨false, out, hcases, fun hfound => absurd hfound Bool.false_ne_true,
        fun _ => ⟨rfl, rfl⟩⟩

/-! The ring. -/

theorem ring_add (hr : ∃ nodes, Chain (some head) h head nodes elements) (num : Int)
    (d : LinkListDataType) :
    ∃ added h' elements', addSingleLinkListData h (some head) num d = some (added, h') ∧
      (∃ nodes, Chain (some head) h' head nodes elements') ∧ Grows elements added d elements' := by
  obtain ⟨nodes, hc⟩ := hr
  by_cases hnum : 1 ≤ num
  · have hring : IsRing h head nodes := ⟨hc.path, hc.distinct⟩
    obtain ⟨b, node, -, hload, hadd, hring'⟩ := hring.insert hnum d
    have hlt := Heap.segment_lt hc.path
    have hholds := datas_insert (fun a ha => hlt a (List.mem_cons_of_mem head ha)) hload hc.holds
      ((num - 1).toNat % (nodes.length + 1)) d
    exact ⟨true, linked h b d, _, hadd, ⟨_, hring'.path, hring'.distinct, hholds⟩, _, rfl⟩
  · exact ⟨false, h, elements, add_nonpos (Int.not_le.mp hnum), ⟨nodes, hc⟩, rfl⟩

theorem ring_counted_iff {nodes : List Addr} (hc : Chain (some head) h head nodes elements)
    (num : Int) :
    Counted h (some head) elements num ↔ num ≠ 0 ∧ num ≤ elements.length := by
  refine ⟨fun hcounted => ⟨fun hzero => ?_, ?_⟩, fun hnum => hc.counted hnum.1 hnum.2⟩
  · subst hzero
    exact hc.not_counted_zero hcounted
  · by_contra hgt
    have hring : IsRing h head nodes := ⟨hc.path, hc.distinct⟩
    have hle : num.toNat % (nodes.length + 1) ≤ elements.length := by
      rw [← hc.length_eq]
      exact Nat.lt_succ_iff.mp (Nat.mod_lt _ (Nat.succ_pos _))
    obtain ⟨a, d, hnode, hdata, -⟩ := hc.exists_data hle
    have hwalk : walk (nexts h) num.toNat (some head) = some (some a, num.toNat) := by
      rw [hring.walk_wraps, walk_get hc.path hnode, Option.map_some, Nat.mul_comm, Nat.div_add_mod]
    have hget := get_reached (d := 0) (by omega) hwalk hdata
    exact Chain.not_counted ⟨d, hget⟩ (fun hin => hgt hin.2) hcounted

end

end RubbishStore.Algorithm
