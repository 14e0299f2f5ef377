import Mathlib
import Blockberry.StateStore.IAVL

/-!
# Trees that are ordered maps

The promises of `Avlberry` are met by ordered maps whose export is the list of their
entries, each as a leaf. The root hash is the list of the entries itself.
-/

namespace Blockberry.StateStore

open Std.TreeMap

/-- A map from keys to values, in the order of the keys. -/
abbrev FlatTree := Std.TreeMap Bytes Bytes compare

namespace FlatTree

/-- The leaf of an entry. -/
def leaf (entry : Bytes × Bytes) : ExportNode := ⟨entry.1, some entry.2, 0, 1⟩

def exportNodes (tree : FlatTree) : List ExportNode := tree.toList.map leaf

/-- The map with the entries of a list of leaves. -/
def ofNodes (nodes : List ExportNode) : FlatTree :=
  ofList (nodes.map fun node => (node.key, node.valueBytes)) compare

theorem mem_exportNodes {tree : FlatTree} {node : ExportNode} :
    node ∈ tree.exportNodes ↔ ∃ key value, tree[key]? = some value ∧ leaf (key, value) = node := by
  simp [exportNodes, mem_toList_iff_getElem?_eq_some]

theorem toList_ofList_toList (tree : FlatTree) :
    (ofList tree.toList compare).toList = tree.toList := by
  rw [← equiv_iff_toList_eq]
  apply Std.TreeMap.Equiv.of_forall_constGet?_eq
  intro key
  cases stored : tree[key]? with
  | none =>
    apply getElem?_ofList_of_contains_eq_false
    rw [map_fst_toList_eq_keys]
    simpa using stored
  | some value =>
    exact getElem?_ofList_of_mem (Std.compare_self) distinct_keys_toList
      (mem_toList_iff_getElem?_eq_some.mpr stored)

theorem exportNodes_ofNodes (tree : FlatTree) :
    (ofNodes tree.exportNodes).exportNodes = tree.exportNodes := by
  have entries : (tree.exportNodes.map fun node => (node.key, node.valueBytes)) = tree.toList := by
    rw [exportNodes, List.map_map]
    exact List.map_id' _
  rw [exportNodes, ofNodes, entries, toList_ofList_toList, exportNodes]

/-- Ordered maps as trees. -/
def lib : Avlberry FlatTree where
  empty := ∅
  get tree key := tree[key]?
  set tree key value := tree.insert key value
  remove tree key := tree.erase key
  saveVersion tree _ := tree
  hash tree := tree.toList.flatMap fun entry => writeSized entry.1 ++ writeSized entry.2
  exportNodes := exportNodes
  importNodes _ _ nodes :=
    if (ofNodes nodes).exportNodes = nodes then some (ofNodes nodes) else none
  get_eq_some_iff tree key value := by
    simp [mem_exportNodes, leaf]
  leaf_value tree node member _ := by
    obtain ⟨key, value, -, rfl⟩ := mem_exportNodes.mp member
    rfl
  inner_value tree node member inner := by
    obtain ⟨key, value, -, rfl⟩ := mem_exportNodes.mp member
    exact absurd rfl inner
  importNodes_exportNodes version tree := by
    rw [if_pos (exportNodes_ofNodes tree)]
    rfl
  exportNodes_importNodes version nodes tree imported := by
    split at imported
    next same =>
      cases imported
      exact same
    next => cases imported

end FlatTree

end Blockberry.StateStore
