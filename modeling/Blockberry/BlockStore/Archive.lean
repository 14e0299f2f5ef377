import Blockberry.Lib.Run
import Blockberry.BlockStore.Pruning
import Mathlib.Data.Set.Card
import Mathlib.Logic.Function.Basic

/-!
# What a prunable store holds

An `Archive` is the content of a block store without its representation. Saving and pruning are
stated once for it; `checked` says whether a hash that is already there is refused. `Valid` says
how the metadata bounds the stored heights, `Linked` that heights and records refer to each other,
which needs that no two heights get the same hash.
-/

namespace Blockberry

open PruneConfig

@[ext] structure Archive where
  entry : Int64 → Option Bytes
  record : Bytes → Option (Int64 × Bytes)
  height : Int64
  base : Int64
  pruneCfg : Option PruneConfig

namespace Archive

variable {a : Archive} {h before newBase : Int64} {hash data : Bytes}

def empty : Archive where
  entry _ := none
  record _ := none
  height := 0
  base := 0
  pruneCfg := none

def loadBlock (a : Archive) (h : Int64) : Option (Bytes × Bytes) :=
  (a.entry h).bind fun hash => (a.record hash).map fun block => (hash, block.2)

def hasBlock (a : Archive) (h : Int64) : Bool := (a.entry h).isSome

def kept (a : Archive) (h : Int64) : Bool := keeps a.pruneCfg h a.height

def put (a : Archive) (h : Int64) (hash data : Bytes) : Archive where
  entry := Function.update a.entry h (some hash)
  record := Function.update a.record hash (some (h, data))
  height := if a.height < h then h else a.height
  base := if a.base = 0 ∨ h < a.base then h else a.base
  pruneCfg := a.pruneCfg

def save (checked : Bool) (a : Archive) (h : Int64) (hash data : Bytes) : Archive × Bool :=
  if a.hasBlock h then (a, false)
  else if checked && (a.record hash).isSome then (a, false)
  else (a.put h hash data, true)

def InWindow (a : Archive) (before h : Int64) : Prop :=
  a.base ≤ h ∧ h < before ∧ a.hasBlock h = true

def Removes (a : Archive) (before h : Int64) : Prop :=
  a.InWindow before h ∧ a.kept h = false

/-- The first height that pruning keeps, or the limit if it keeps none below. -/
structure FirstKept (a : Archive) (before newBase : Int64) : Prop where
  le_kept : ∀ h, a.InWindow before h → a.kept h = true → newBase ≤ h
  reached : newBase = before ∨ a.InWindow before newBase ∧ a.kept newBase = true

variable (first : a.FirstKept before newBase)

include first

theorem FirstKept.unique {other : Int64} (second : a.FirstKept before other) : newBase = other := by
  have le {x y : Int64} (this : a.FirstKept before x) (that : a.FirstKept before y) : x ≤ y := by
    rcases that.reached with rfl | ⟨inWindow, isKept⟩
    · rcases this.reached with rfl | ⟨⟨-, below, -⟩, -⟩
      · exact Int64.le_refl _
      · exact Int64.le_of_lt below
    · exact this.le_kept y inWindow isKept
  exact Int64.le_antisymm (le first second) (le second first)

theorem FirstKept.base_le (room : a.base < before) : a.base ≤ newBase := by
  rcases first.reached with rfl | ⟨inWindow, -⟩
  · exact Int64.le_of_lt room
  · exact inWindow.1

theorem FirstKept.le_before : newBase ≤ before := by
  rcases first.reached with rfl | ⟨inWindow, -⟩
  · exact Int64.le_refl _
  · exact Int64.le_of_lt inWindow.2.1

omit first

theorem firstKept_lowestKept {visited : List Int64}
    (visits : ∀ h, h ∈ visited ↔ a.InWindow before h) :
    a.FirstKept before (lowestKept a.kept before visited) where
  le_kept h inWindow isKept := lowestKept_le_of_mem ((visits h).mpr inWindow) isKept
  reached := by
    rcases lowestKept_eq_or_mem a.kept before visited with same | ⟨member, isKept⟩
    · exact .inl same
    · exact .inr ⟨(visits _).mp member, isKept⟩

noncomputable def firstKept (a : Archive) (before : Int64) : Int64 :=
  Classical.epsilon (a.FirstKept before)

theorem FirstKept.firstKept_eq (first : a.FirstKept before newBase) :
    a.firstKept before = newBase :=
  (Classical.epsilon_spec ⟨newBase, first⟩ : a.FirstKept before _).unique first

/-- The heights for which `Prune` does not fail. -/
def Prunable (a : Archive) (before : Int64) : Prop := 0 < before ∧ before ≤ a.height

instance (a : Archive) (before : Int64) : Decidable (a.Prunable before) :=
  inferInstanceAs (Decidable (_ ∧ _))

def HashAt (a : Archive) (heights : Int64 → Prop) (hash : Bytes) : Prop :=
  ∃ h, heights h ∧ a.entry h = some hash

open Classical in
/-- The archive without the blocks at some heights. -/
noncomputable def erase (a : Archive) (gone : Int64 → Prop) : Archive :=
  { a with
    entry := fun h => if gone h then none else a.entry h
    record := fun hash => if a.HashAt gone hash then none else a.record hash }

open Classical in
noncomputable def prune (a : Archive) (before : Int64) : Archive :=
  if a.Prunable before ∧ a.base < before then
    { a.erase (a.Removes before) with base := a.firstKept before }
  else a

/-- One call on an archive, and whether it succeeds. -/
noncomputable def run (checked : Bool) (a : Archive) : StoreOp → Archive × Bool
  | .saveBlock h hash data => a.save checked h hash data
  | .prune before => (a.prune before, decide (a.Prunable before))
  | .setPruneConfig cfg => ({ a with pruneCfg := cfg }, true)

noncomputable def step (checked : Bool) (a : Archive) (op : StoreOp) : Archive :=
  (a.run checked op).1

theorem save_cases (checked : Bool) (a : Archive) (h : Int64) (hash data : Bytes) :
    a.save checked h hash data = (a, false) ∨
      a.entry h = none ∧ (checked = true → a.record hash = none) ∧
        a.save checked h hash data = (a.put h hash data, true) := by
  unfold save hasBlock
  split
  next => exact .inl rfl
  next free =>
    split
    next => exact .inl rfl
    next notKnown =>
      refine .inr ⟨by simpa using free, ?_, rfl⟩
      rintro rfl
      simpa using notKnown

theorem prune_of_not (impossible : ¬(a.Prunable before ∧ a.base < before)) :
    a.prune before = a := by
  rw [prune, if_neg impossible]

section Erase

variable {gone : Int64 → Prop}

theorem entry_erase_of_gone (isGone : gone h) : (a.erase gone).entry h = none := if_pos isGone

theorem entry_erase_of_not_gone (stays : ¬gone h) : (a.erase gone).entry h = a.entry h :=
  if_neg stays

theorem record_erase_of_gone (isGone : gone h) (isEntry : a.entry h = some hash) :
    (a.erase gone).record hash = none := if_pos ⟨h, isGone, isEntry⟩

theorem record_erase_of_not_gone (stays : ∀ h, gone h → a.entry h ≠ some hash) :
    (a.erase gone).record hash = a.record hash := by
  apply if_neg
  rintro ⟨h, isGone, isEntry⟩
  exact stays h isGone isEntry

/-- What has to be shown of a content to be what is left, up to the base. -/
theorem eq_erase {b : Archive} (entry_gone : ∀ h, gone h → b.entry h = none)
    (entry_kept : ∀ h, ¬gone h → b.entry h = a.entry h)
    (record_gone : ∀ h hash, gone h → a.entry h = some hash → b.record hash = none)
    (record_kept : ∀ hash, (∀ h, gone h → a.entry h ≠ some hash) → b.record hash = a.record hash)
    (height : b.height = a.height) (pruneCfg : b.pruneCfg = a.pruneCfg) :
    b = { a.erase gone with base := b.base } := by
  ext1
  · funext h
    by_cases isGone : gone h
    · rw [entry_erase_of_gone isGone, entry_gone h isGone]
    · rw [entry_erase_of_not_gone isGone, entry_kept h isGone]
  · funext hash
    by_cases isGone : ∃ h, gone h ∧ a.entry h = some hash
    · obtain ⟨h, goneHere, isEntry⟩ := isGone
      rw [record_erase_of_gone goneHere isEntry, record_gone h hash goneHere isEntry]
    · have stays : ∀ h, gone h → a.entry h ≠ some hash :=
        fun h goneHere isEntry => isGone ⟨h, goneHere, isEntry⟩
      rw [record_erase_of_not_gone stays, record_kept hash stays]
  · exact height
  · rfl
  · exact pruneCfg

end Erase

section Prune

variable (prunable : a.Prunable before) (room : a.base < before)

include prunable room

theorem prune_eq : a.prune before =
    { a.erase (a.Removes before) with base := a.firstKept before } := by
  rw [prune, if_pos ⟨prunable, room⟩]

theorem entry_prune : (a.prune before).entry = (a.erase (a.Removes before)).entry := by
  rw [prune_eq prunable room]

theorem record_prune : (a.prune before).record = (a.erase (a.Removes before)).record := by
  rw [prune_eq prunable room]

theorem base_prune (first : a.FirstKept before newBase) : (a.prune before).base = newBase := by
  rw [prune_eq prunable room]
  exact first.firstKept_eq

end Prune

@[simp] theorem height_prune (a : Archive) (before : Int64) :
    (a.prune before).height = a.height := by
  unfold prune
  split <;> rfl

@[simp] theorem pruneCfg_prune (a : Archive) (before : Int64) :
    (a.prune before).pruneCfg = a.pruneCfg := by
  unfold prune
  split <;> rfl

theorem eq_prune {b : Archive} (prunable : a.Prunable before) (room : a.base < before)
    (content : b = { a.erase (a.Removes before) with base := b.base })
    (first : a.FirstKept before b.base) : b = a.prune before := by
  rw [content, prune_eq prunable room, first.firstKept_eq]

theorem ncard_removes_of_no_room (noRoom : ¬a.base < before) :
    {h | a.Removes before h}.ncard = 0 := by
  have none : {h | a.Removes before h} = ∅ := by
    apply Set.eq_empty_of_forall_notMem
    intro h removed
    exact noRoom (Int64.lt_of_le_of_lt removed.1.1 removed.1.2.1)
  rw [none, Set.ncard_empty]

theorem ncard_removes {removed : List Int64} (nodup : removed.Nodup)
    (lists : ∀ h, h ∈ removed ↔ a.Removes before h) :
    {h | a.Removes before h}.ncard = removed.length := by
  have same : {h | a.Removes before h} = (removed.toFinset : Set Int64) := by
    ext h
    rw [Finset.mem_coe, List.mem_toFinset]
    exact (lists h).symm
  rw [same, Set.ncard_coe_finset, List.toFinset_card_of_nodup nodup]

theorem toInt_ofNat_removed {removed : List Int64} (nodup : removed.Nodup)
    (lists : ∀ h, h ∈ removed ↔ a.Removes before h)
    (pos : ∀ h, a.hasBlock h = true → 0 < h) :
    (Int64.ofNat removed.length).toInt = {h | a.Removes before h}.ncard := by
  have bound : removed.length < 2 ^ 63 :=
    Machine.length_lt_of_pos nodup fun h member => pos h ((lists h).mp member).1.2.2
  rw [Int64.toInt_ofNat_of_lt bound, ncard_removes nodup lists]

theorem entry_erase_eq_some {gone : Int64 → Prop} (found : (a.erase gone).entry h = some hash) :
    ¬gone h ∧ a.entry h = some hash := by
  by_cases isGone : gone h
  · rw [entry_erase_of_gone isGone] at found
    cases found
  · rw [entry_erase_of_not_gone isGone] at found
    exact ⟨isGone, found⟩

theorem entry_prune_eq_some (found : (a.prune before).entry h = some hash) :
    a.entry h = some hash := by
  by_cases possible : a.Prunable before ∧ a.base < before
  · rw [entry_prune possible.1 possible.2] at found
    exact (entry_erase_eq_some found).2
  · rwa [prune_of_not possible] at found

end Archive

end Blockberry
