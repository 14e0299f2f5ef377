import Blockberry.Lib.Run
import Blockberry.StateStore.ExportNode

/-!
# The state store

`IAVLStore` keeps its contents in a versioned tree. The tree comes from another module,
avlberry; `Avlberry` is what is used of it. Changes go to a working tree, `Commit` saves
the working tree as the next version.
-/

namespace Blockberry.StateStore

structure Avlberry (T : Type) where
  empty : T
  get : T → Bytes → Option Bytes
  set : T → Bytes → Bytes → T
  remove : T → Bytes → T
  saveVersion : T → Int64 → T
  hash : T → Bytes
  exportNodes : T → List ExportNode
  importNodes : T → Int64 → List ExportNode → Option T
  get_eq_some_iff : ∀ tree key value, get tree key = some value ↔
    ∃ node ∈ exportNodes tree, node.height = 0 ∧ node.key = key ∧ node.value = some value
  leaf_value : ∀ tree, ∀ node ∈ exportNodes tree, node.height = 0 → node.value.isSome = true
  inner_value : ∀ tree, ∀ node ∈ exportNodes tree, node.height ≠ 0 → node.value = none
  importNodes_exportNodes : ∀ version tree,
    (importNodes empty version (exportNodes tree)).isSome = true
  exportNodes_importNodes : ∀ version nodes tree,
    importNodes empty version nodes = some tree → exportNodes tree = nodes

/-- A `MutableTree` with its working tree and the version that is loaded. -/
structure MutableTree (T : Type) where
  working : T
  saved : T
  version : Int64

structure IAVLStore (T : Type) where
  tree : MutableTree T

inductive StateError where
  | keyNil
  | valueNil
  deriving DecidableEq, Repr

namespace IAVLStore

variable {T : Type} (lib : Avlberry T)

def new : IAVLStore T := ⟨⟨lib.empty, lib.empty, 0⟩⟩

def get (s : IAVLStore T) (key : Bytes) : Option Bytes := lib.get s.tree.working key

def set (s : IAVLStore T) (key value : Option Bytes) : IAVLStore T × Option StateError :=
  match key, value with
  | none, _ => (s, some .keyNil)
  | some _, none => (s, some .valueNil)
  | some key, some value =>
    (⟨{ s.tree with working := lib.set s.tree.working key value }⟩, none)

def delete (s : IAVLStore T) (key : Option Bytes) : IAVLStore T × Option StateError :=
  match key with
  | none => (s, some .keyNil)
  | some key => (⟨{ s.tree with working := lib.remove s.tree.working key }⟩, none)

/-- The root hash and the number of the new version. -/
def commit (s : IAVLStore T) : IAVLStore T × Bytes × Int64 :=
  let version := s.tree.version + 1
  let saved := lib.saveVersion s.tree.working version
  (⟨⟨saved, saved, version⟩⟩, lib.hash saved, version)

def rootHash (s : IAVLStore T) : Bytes := lib.hash s.tree.working

end IAVLStore

inductive StateOp where
  | set (key value : Option Bytes)
  | delete (key : Option Bytes)
  | commit
  deriving DecidableEq, Repr

/-- What a `Commit` returned, with the tree that it saved. -/
structure Committed (T : Type) where
  rootHash : Bytes
  version : Int64
  tree : T

/-- A store with its commits. -/
structure StateHistory (T : Type) where
  store : IAVLStore T
  commits : List (Committed T)

namespace StateHistory

variable {T : Type} (lib : Avlberry T)

def new : StateHistory T := ⟨IAVLStore.new lib, []⟩

def step (H : StateHistory T) : StateOp → StateHistory T
  | .set key value => { H with store := (H.store.set lib key value).1 }
  | .delete key => { H with store := (H.store.delete lib key).1 }
  | .commit =>
    let (store, rootHash, version) := H.store.commit lib
    { store, commits := H.commits ++ [⟨rootHash, version, store.tree.saved⟩] }

/-- The history of a list of calls on a new store. -/
def ofCalls (ops : List StateOp) : StateHistory T := Run.after (step lib) (new lib) ops

/-- The saved tree of a store is that of the last commit. -/
def SavedLast (H : StateHistory T) : Prop :=
  ∀ last, H.commits.getLast? = some last → H.store.tree.saved = last.tree

variable {lib} {H : StateHistory T}

theorem saved_set (s : IAVLStore T) (key value : Option Bytes) :
    (s.set lib key value).1.tree.saved = s.tree.saved := by
  cases key with
  | none => rfl
  | some key =>
    cases value with
    | none | some => rfl

theorem saved_delete (s : IAVLStore T) (key : Option Bytes) :
    (s.delete lib key).1.tree.saved = s.tree.saved := by
  cases key with
  | none | some => rfl

theorem SavedLast.step (savedLast : SavedLast H) (op : StateOp) : SavedLast (H.step lib op) := by
  intro last isLast
  cases op with
  | set key value => exact (saved_set H.store key value).trans (savedLast last isLast)
  | delete key => exact (saved_delete H.store key).trans (savedLast last isLast)
  | commit =>
    have same : some _ = some last := List.getLast?_concat.symm.trans isLast
    rw [← Option.some.inj same]
    rfl

theorem savedLast_ofCalls (ops : List StateOp) : SavedLast (ofCalls lib ops) := by
  apply Run.invariant_after
  · intro last isLast
    cases isLast
  · intro H op savedLast
    exact savedLast.step op

/-- A history with a commit has a last one, and its tree is what the store has saved. -/
theorem exists_last {ops : List StateOp} {entry : Committed T}
    (committed : entry ∈ (ofCalls lib ops).commits) :
    ∃ last, (ofCalls lib ops).commits.getLast? = some last ∧
      (ofCalls lib ops).store.tree.saved = last.tree := by
  cases isLast : (ofCalls lib ops).commits.getLast? with
  | none =>
    rw [List.getLast?_eq_none_iff.mp isLast] at committed
    cases committed
  | some last => exact ⟨last, rfl, savedLast_ofCalls ops last isLast⟩

end StateHistory

end Blockberry.StateStore
