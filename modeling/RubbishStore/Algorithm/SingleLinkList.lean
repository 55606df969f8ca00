import Mathlib.Data.Option.Basic
import RubbishStore.Algorithm.LinkList

/- `SingleLinkList.c`: the list that begins as one node with a null `next`. Its
   data are those of the nodes behind the head (`Represents`), an addition at
   position `num` is an insertion into them, and reading position `num` is the
   `num`-th of them, after every sequence of additions. -/
namespace RubbishStore.Algorithm
open RubbishStore.Lib

/-- The nodes lead from the head to NULL; those behind the head hold the data. -/
structure IsList (h : Nodes) (head : Addr) (nodes : List Addr) (data : List LinkListDataType) :
    Prop where
  path : Segment (nexts h) (some head) (head :: nodes) none
  distinct : (head :: nodes).Nodup
  holds : nodes.map (datas h) = data.map some

/-- `data` is the data sequence of the list. -/
def Represents (h : Nodes) (head : Addr) (data : List LinkListDataType) : Prop :=
  ∃ nodes, IsList h head nodes data

theorem Represents.unique {h : Nodes} {head : Addr} {data data' : List LinkListDataType}
    (hd : Represents h head data) (hd' : Represents h head data') : data' = data := by
  obtain ⟨nodes, hl⟩ := hd
  obtain ⟨nodes', hl'⟩ := hd'
  obtain rfl : nodes = nodes' := List.cons_inj_right head |>.mp (hl.path.unique hl'.path)
  exact List.map_injective_iff.mpr (Option.some_injective _) (hl'.holds.symm.trans hl.holds)

namespace IsList
variable {h : Nodes} {head : Addr} {nodes : List Addr} {data : List LinkListDataType}

theorem length_eq (hl : IsList h head nodes data) : nodes.length = data.length := by
  have hlen := congrArg List.length hl.holds
  rwa [List.length_map, List.length_map] at hlen

/-- An addition up to one past the end inserts; `n` is `num - 1`. -/
theorem insert (hl : IsList h head nodes data) {n : Nat} (hn : n ≤ data.length)
    (d : LinkListDataType) :
    ∃ b node, walk (nexts h) n (some head) = some (some b, n) ∧ h.load b = some node ∧
      IsList (linked h b d) head (nodes.take n ++ h.fresh :: nodes.drop n)
        (data.take n ++ d :: data.drop n) := by
  rw [← hl.length_eq] at hn
  obtain ⟨b, node, hwalk, hload, hpath, hdistinct⟩ :=
    segment_insert (d := d) hl.path hl.distinct hn
  have hlt := Heap.segment_lt hl.path
  refine ⟨b, node, hwalk, hload, hpath, hdistinct, ?_⟩
  exact datas_insert (fun a ha => hlt a (List.mem_cons_of_mem head ha)) hload hl.holds n d

theorem walk_past (hl : IsList h head nodes data) {n : Nat} (hn : data.length < n) :
    walk (nexts h) n (some head) = some (none, nodes.length + 1) := by
  have hlen : n = (head :: nodes).length + (n - (nodes.length + 1)) := by
    have := hl.length_eq
    rw [List.length_cons]
    omega
  rw [hlen, Lib.walk_past hl.path]
  rfl

theorem add_cases (hl : IsList h head nodes data) (num : Int) (d : LinkListDataType) :
    if 1 ≤ num ∧ num ≤ data.length + 1 then
      ∃ h' nodes', addSingleLinkListData h (some head) num d = some (true, h') ∧
        IsList h' head nodes' (data.take (num - 1).toNat ++ d :: data.drop (num - 1).toNat)
    else addSingleLinkListData h (some head) num d = some (false, h) := by
  split
  case isTrue hnum =>
    obtain ⟨b, node, hwalk, hload, hl'⟩ := hl.insert (n := (num - 1).toNat) (by omega) d
    exact ⟨linked h b d, _, add_linked hnum.1 hload hwalk, hl'⟩
  case isFalse hnum =>
    by_cases hpos : num < 1
    · exact add_nonpos hpos
    · exact add_null (hl.walk_past (by omega))

theorem get_cases (hl : IsList h head nodes data) {num : Int} (hnum : 1 ≤ num)
    (out : LinkListDataType) :
    if num ≤ data.length then
      ∃ d, data[(num - 1).toNat]? = some d ∧
        getSingleLinkListData h (some head) num out = some (true, d)
    else getSingleLinkListData h (some head) num out = some (false, out) := by
  split
  case isTrue hle =>
    have hlt : (num - 1).toNat < nodes.length := by
      have := hl.length_eq
      omega
    have hnode : (head :: nodes)[num.toNat]? = some nodes[(num - 1).toNat] := by
      have hsucc : num.toNat = (num - 1).toNat + 1 := by omega
      rw [hsucc, List.getElem?_cons_succ, List.getElem?_eq_getElem hlt]
    have hheld : (nodes.map (datas h))[(num - 1).toNat]? = (data.map some)[(num - 1).toNat]? := by
      rw [hl.holds]
    rw [List.getElem?_map, List.getElem?_map, List.getElem?_eq_getElem hlt,
      List.getElem?_eq_getElem (hl.length_eq ▸ hlt)] at hheld
    have hdata := Option.some.inj hheld
    refine ⟨_, List.getElem?_eq_getElem (hl.length_eq ▸ hlt), ?_⟩
    exact get_reached (by omega) (walk_get hl.path hnode) hdata
  case isFalse hgt =>
    have hwalk := hl.walk_past (n := num.toNat) (by omega)
    rw [getSingleLinkListData, walkTo_eq, hwalk]
    rfl

end IsList

theorem Represents.add {h : Nodes} {head : Addr} {data : List LinkListDataType}
    (hd : Represents h head data) (num : Int) (d : LinkListDataType) :
    ∃ added h' data', addSingleLinkListData h (some head) num d = some (added, h') ∧
      Represents h' head data' ∧ Grows data added d data' := by
  obtain ⟨nodes, hl⟩ := hd
  have hcases := hl.add_cases num d
  split at hcases
  · obtain ⟨h', nodes', hadd, hl'⟩ := hcases
    exact ⟨true, h', _, hadd, ⟨nodes', hl'⟩, _, rfl⟩
  · exact ⟨false, h, data, hcases, ⟨nodes, hl⟩, rfl⟩

theorem isList_newHead : IsList (newHead none) 0 [] [] :=
  ⟨⟨rfl, none, rfl, rfl⟩, List.nodup_singleton 0, rfl⟩

/-- After every sequence of additions to the empty list. -/
theorem singleLinkList_refines (calls : List (Int × LinkListDataType)) :
    ∃ results h L, addAll (some 0) (newHead none) calls = some (results, h) ∧
      (∀ L', Represents h 0 L' ↔ L' = L) ∧
      (∀ (num : Int) d,
        if 1 ≤ num ∧ num ≤ L.length + 1 then
          ∃ h', addSingleLinkListData h (some 0) num d = some (true, h') ∧
            Represents h' 0 (L.take (num - 1).toNat ++ d :: L.drop (num - 1).toNat)
        else addSingleLinkListData h (some 0) num d = some (false, h)) ∧
      (∀ num : Int, 1 ≤ num → ∀ out,
        if num ≤ L.length then
          ∃ d, L[(num - 1).toNat]? = some d ∧
            getSingleLinkListData h (some 0) num out = some (true, d)
        else getSingleLinkListData h (some 0) num out = some (false, out)) := by
  obtain ⟨results, h, L, hrun, ⟨nodes, hl⟩, -⟩ :=
    addAll_grows (fun h data hd => Represents.add hd) ⟨[], isList_newHead⟩ calls
  refine ⟨results, h, L, hrun, ?_, ?_, ?_⟩
  · intro L'
    refine ⟨fun hL' => ?_, fun hx => ?_⟩
    · exact Represents.unique ⟨nodes, hl⟩ hL'
    · obtain rfl := hx
      exact ⟨nodes, hl⟩
  · intro num d
    have hcases := hl.add_cases num d
    split at hcases
    case isTrue hnum =>
      obtain ⟨h', nodes', hadd, hl'⟩ := hcases
      rw [if_pos hnum]
      exact ⟨h', hadd, nodes', hl'⟩
    case isFalse hnum =>
      rw [if_neg hnum]
      exact hcases
  · intro num hnum out
    exact hl.get_cases hnum out

end RubbishStore.Algorithm
