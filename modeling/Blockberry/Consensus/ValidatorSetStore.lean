import Blockberry.Lib.BinarySearch
import Blockberry.Lib.FiniteMap

/-!
# The store of validator sets

The store keeps a set for each height it was saved at, the heights in order, and the greatest of
them, where `0` is read as "nothing saved". The set that is active at a height is the one saved at
the greatest height up to it, which a binary search finds.
-/

namespace Blockberry.Consensus

open BinarySearch FiniteMap List Int64

variable {α : Type*}

inductive ValidatorSetError where
  | notFound
  | notFoundAt (height : Int64)
  deriving DecidableEq, Repr

structure InMemoryValidatorSetStore (α : Type*) where
  sets : Finmap fun _ : Int64 => α
  sortedHeights : List Int64
  latest : Int64

namespace InMemoryValidatorSetStore

def newInMemoryValidatorSetStore : InMemoryValidatorSetStore α := ⟨∅, [], 0⟩

def saveValidatorSet (s : InMemoryValidatorSetStore α) (height : Int64) (valSet : α) :
    InMemoryValidatorSetStore α where
  sets := s.sets.insert height valSet
  sortedHeights :=
    if height ∈ s.sets then s.sortedHeights
    else insertAt s.sortedHeights (binarySearch toInt s.sortedHeights height).1 height
  latest := if s.latest < height then height else s.latest

/-- The set of a height that is not in the map is `nil`. -/
def latestValidatorSet (nil : α) (s : InMemoryValidatorSetStore α) : Except ValidatorSetError α :=
  if s.latest = 0 then .error .notFound else .ok (valueOr nil s.sets s.latest)

/-- The height of the set that is active at a height. -/
def activeHeight (s : InMemoryValidatorSetStore α) (height : Int64) : Option Int64 :=
  let (idx, found) := binarySearch toInt s.sortedHeights height
  if s.sortedHeights.length = 0 then none
  else if found then s.sortedHeights[idx]?
  else if 0 < idx then s.sortedHeights[idx - 1]?
  else none

def validatorSetAtHeight (nil : α) (s : InMemoryValidatorSetStore α) (height : Int64) :
    Except ValidatorSetError α :=
  match s.activeHeight height with
  | none => .error (.notFoundAt height)
  | some activeHeight => .ok (valueOr nil s.sets activeHeight)

/-- A new store after calls of `SaveValidatorSet`. -/
def afterSaves (saves : List (Int64 × α)) : InMemoryValidatorSetStore α :=
  saves.foldl (fun s save => s.saveValidatorSet save.1 save.2) newInMemoryValidatorSetStore

end InMemoryValidatorSetStore

/-! ## What was saved -/

variable (saves : List (Int64 × α))

def lastSaved (height : Int64) : Option α :=
  (saves.findRev? (·.1 = height)).map (·.2)

def savedHeights : Set Int64 :=
  { height | ∃ save ∈ saves, save.1 = height }

/-- A lookup gives the set saved last at the greatest of some heights, and fails exactly if there
are none. -/
structure Finds (saves : List (Int64 × α)) (heights : Set Int64)
    (result : Except ValidatorSetError α) : Prop where
  ok : ∀ valSet, result = .ok valSet →
    ∃ height, IsGreatest heights height ∧ lastSaved saves height = some valSet
  error : (∃ error, result = .error error) ↔ heights = ∅

theorem finds_error {saves : List (Int64 × α)} {heights : Set Int64} (empty : heights = ∅)
    (error : ValidatorSetError) : Finds saves heights (.error error) where
  ok valSet isOk := by cases isOk
  error := iff_of_true ⟨error, rfl⟩ empty

theorem finds_ok {saves : List (Int64 × α)} {heights : Set Int64} {height : Int64} {valSet : α}
    (greatest : IsGreatest heights height) (last : lastSaved saves height = some valSet) :
    Finds saves heights (.ok valSet) where
  ok other isOk := by
    cases isOk
    exact ⟨height, greatest, last⟩
  error := by
    refine iff_of_false ?_ (Set.Nonempty.ne_empty ⟨height, greatest.1⟩)
    rintro ⟨error, isError⟩
    cases isError

theorem savedHeights_nil : savedHeights ([] : List (Int64 × α)) = ∅ := by
  simp [savedHeights]

theorem lastSaved_append (save : Int64 × α) (height : Int64) :
    lastSaved (saves ++ [save]) height =
      if save.1 = height then some save.2 else lastSaved saves height := by
  rw [lastSaved, List.findRev?_eq_find?_reverse, reverse_append, reverse_singleton,
    singleton_append, List.find?_cons]
  split
  next same => rw [if_pos (by simpa using same), Option.map_some]
  next different =>
    rw [if_neg (by simpa using different), ← List.findRev?_eq_find?_reverse]
    rfl

theorem savedHeights_append (save : Int64 × α) (height : Int64) :
    height ∈ savedHeights (saves ++ [save]) ↔ save.1 = height ∨ height ∈ savedHeights saves := by
  constructor
  · rintro ⟨other, member, isHeight⟩
    cases mem_append.mp member with
    | inl earlier => exact .inr ⟨other, earlier, isHeight⟩
    | inr last => exact .inl (mem_singleton.mp last ▸ isHeight)
  · rintro (isHeight | ⟨other, earlier, isHeight⟩)
    · exact ⟨save, mem_append_right _ (mem_singleton_self _), isHeight⟩
    · exact ⟨other, mem_append_left _ earlier, isHeight⟩

namespace InMemoryValidatorSetStore

structure Holds (s : InMemoryValidatorSetStore α) (saves : List (Int64 × α)) : Prop where
  lookup_eq : ∀ height, s.sets.lookup height = lastSaved saves height
  mem_sets : ∀ height, height ∈ s.sets ↔ height ∈ savedHeights saves
  strict : s.sortedHeights.Pairwise fun left right => left.toInt < right.toInt
  mem_sorted : ∀ height, height ∈ s.sortedHeights ↔ height ∈ s.sets
  latest : IsGreatest (insert 0 (savedHeights saves)) s.latest

variable {s : InMemoryValidatorSetStore α} {saves : List (Int64 × α)}

theorem Holds.saveValidatorSet (holds : s.Holds saves) (height : Int64) (valSet : α) :
    (s.saveValidatorSet height valSet).Holds (saves ++ [(height, valSet)]) where
  lookup_eq query := by
    rw [lastSaved_append, InMemoryValidatorSetStore.saveValidatorSet, lookup_insert,
      holds.lookup_eq]
  mem_sets query := by
    rw [savedHeights_append, ← holds.mem_sets, InMemoryValidatorSetStore.saveValidatorSet,
      Finmap.mem_insert]
    exact or_congr_left eq_comm
  strict := by
    rw [InMemoryValidatorSetStore.saveValidatorSet]
    dsimp only
    split
    next => exact holds.strict
    next absent =>
      exact pairwise_insertAt holds.strict (fun _ _ => toInt_inj.mp)
        (mt (holds.mem_sorted height).mp absent)
  mem_sorted query := by
    rw [InMemoryValidatorSetStore.saveValidatorSet, Finmap.mem_insert]
    dsimp only
    split
    next present =>
      rw [holds.mem_sorted]
      exact ⟨.inr, fun either => either.elim (fun same => same ▸ present) id⟩
    next => rw [mem_insertAt, holds.mem_sorted]
  latest := by
    obtain ⟨reached, bound⟩ := holds.latest
    rw [InMemoryValidatorSetStore.saveValidatorSet]
    dsimp only
    split
    next less =>
      refine ⟨.inr ((savedHeights_append _ _ _).mpr (.inl rfl)), ?_⟩
      rintro other (isZero | member)
      · exact Int64.le_trans (bound (.inl isZero)) (Int64.le_of_lt less)
      · cases (savedHeights_append _ _ _).mp member with
        | inl same => exact same ▸ Int64.le_refl _
        | inr earlier => exact Int64.le_trans (bound (.inr earlier)) (Int64.le_of_lt less)
    next notLess =>
      refine ⟨reached.imp_right fun member => (savedHeights_append _ _ _).mpr (.inr member), ?_⟩
      rintro other (isZero | member)
      · exact bound (.inl isZero)
      · cases (savedHeights_append _ _ _).mp member with
        | inl same => exact same ▸ Int64.not_lt.mp notLess
        | inr earlier => exact bound (.inr earlier)

theorem holds_afterSaves (saves : List (Int64 × α)) : (afterSaves saves).Holds saves := by
  induction saves using List.reverseRecOn with
  | nil =>
    refine ⟨fun _ => rfl, fun height => ?_, List.Pairwise.nil, fun height => ?_, .inl rfl, ?_⟩
    · exact iff_of_false Finmap.notMem_empty (savedHeights_nil ▸ Set.notMem_empty height)
    · exact iff_of_false not_mem_nil Finmap.notMem_empty
    · rintro other (isZero | ⟨save, member, -⟩)
      · exact isZero ▸ Int64.le_refl _
      · cases member
  | append_singleton saves save ih =>
    rw [afterSaves, foldl_append]
    exact ih.saveValidatorSet save.1 save.2

/-! ## The lookups -/

variable (holds : s.Holds saves)

include holds

theorem Holds.lastSaved_eq (nil : α) {height : Int64} (saved : height ∈ savedHeights saves) :
    lastSaved saves height = some (valueOr nil s.sets height) := by
  obtain ⟨valSet, found⟩ := Finmap.mem_iff.mp ((holds.mem_sets height).mpr saved)
  rw [← holds.lookup_eq, valueOr, found]
  rfl

theorem Holds.mem_sortedHeights (height : Int64) :
    height ∈ s.sortedHeights ↔ height ∈ savedHeights saves :=
  (holds.mem_sorted height).trans (holds.mem_sets height)

theorem Holds.activeHeight_spec (height : Int64) :
    match s.activeHeight height with
    | some active => IsGreatest { saved | saved ∈ savedHeights saves ∧ saved ≤ height } active
    | none => { saved | saved ∈ savedHeights saves ∧ saved ≤ height } = ∅ := by
  have ordered : Ordered toInt s.sortedHeights := holds.strict.imp le_of_lt
  have between := binarySearch_between ordered height
  have isFound := @binarySearch_found _ toInt _ height _ ordered fun _ _ => toInt_inj.mp
  have below : ∀ saved ∈ savedHeights saves, saved ≤ height → height ∉ s.sortedHeights →
      saved.toInt < height.toInt := by
    intro saved isSaved le absent
    refine lt_of_le_of_ne (le_iff_toInt_le.mp le) fun same => absent ?_
    exact toInt_inj.mp same ▸ (holds.mem_sortedHeights saved).mpr isSaved
  rw [activeHeight]
  dsimp only
  by_cases found : (binarySearch toInt s.sortedHeights height).2 = true
  · have member := isFound.mp found
    rw [if_neg fun empty => ne_nil_of_mem member (length_eq_zero_iff.mp empty),
      if_pos found, getElem_of_found found]
    exact ⟨⟨(holds.mem_sortedHeights height).mp member, Int64.le_refl _⟩, fun _ member => member.2⟩
  · have absent := mt isFound.mpr found
    by_cases pos : 0 < (binarySearch toInt s.sortedHeights height).1
    · obtain ⟨active, isActive, less, greatest⟩ := binarySearch_pred ordered pos
      have member := mem_of_getElem? isActive
      rw [if_neg fun empty => ne_nil_of_mem member (length_eq_zero_iff.mp empty),
        if_neg found, if_pos pos, isActive]
      refine ⟨⟨(holds.mem_sortedHeights active).mp member, ?_⟩, fun saved isSaved => ?_⟩
      · exact le_iff_toInt_le.mpr less.le
      · apply le_iff_toInt_le.mpr
        exact greatest saved ((holds.mem_sortedHeights saved).mpr isSaved.1)
          (below saved isSaved.1 isSaved.2 absent)
    · rw [if_neg found, if_neg pos, ite_self]
      apply Set.eq_empty_of_forall_notMem
      intro saved isSaved
      obtain ⟨index, isIndex⟩ := mem_iff_getElem?.mp
        ((holds.mem_sortedHeights saved).mpr isSaved.1)
      have above := between.above index saved isIndex (by omega)
      exact (below saved isSaved.1 isSaved.2 absent).not_ge above

theorem Holds.validatorSetAtHeight (nil : α) (height : Int64) :
    Finds saves { saved | saved ∈ savedHeights saves ∧ saved ≤ height }
      (s.validatorSetAtHeight nil height) := by
  have spec := holds.activeHeight_spec height
  rw [InMemoryValidatorSetStore.validatorSetAtHeight]
  cases active : s.activeHeight height with
  | none =>
    rw [active] at spec
    exact finds_error spec _
  | some activeHeight =>
    rw [active] at spec
    exact finds_ok spec (holds.lastSaved_eq nil spec.1.1)

/-- The latest set is found if a height that was saved is positive, or nothing was saved. -/
theorem Holds.latestValidatorSet_iff (nil : α) :
    Finds saves (savedHeights saves) (s.latestValidatorSet nil) ↔
      saves = [] ∨ ∃ save ∈ saves, 0 < save.1 := by
  obtain ⟨reached, bound⟩ := holds.latest
  rw [latestValidatorSet]
  split
  next isZero =>
    constructor
    · intro finds
      refine .inl (eq_nil_iff_forall_not_mem.mpr fun save member => ?_)
      have empty := finds.error.mp ⟨_, rfl⟩
      exact Set.notMem_empty save.1 (empty ▸ ⟨save, member, rfl⟩)
    · rintro (none | ⟨save, member, positive⟩)
      · exact finds_error (none ▸ savedHeights_nil) _
      · have le := bound (.inr ⟨save, member, rfl⟩)
        rw [isZero] at le
        exact absurd positive (Int64.not_lt.mpr le)
  next notZero =>
    have saved := reached.resolve_left notZero
    have greatest : IsGreatest (savedHeights saves) s.latest :=
      ⟨saved, fun _ member => bound (.inr member)⟩
    refine iff_of_true (finds_ok greatest (holds.lastSaved_eq nil saved)) (.inr ?_)
    obtain ⟨save, member, isLatest⟩ := saved
    refine ⟨save, member, ?_⟩
    rw [isLatest]
    exact Int64.lt_of_le_of_ne (bound (.inl rfl)) (Ne.symm notZero)

omit holds

/-- After any sequence of saves the heights are in order and those that were saved, and a lookup by
height finds the set that is active there. The lookup of the latest set is right exactly if nothing
or a positive height was saved. -/
theorem lookups_afterSaves (nil : α) (saves : List (Int64 × α)) :
    (afterSaves saves).sortedHeights.Pairwise (· < ·) ∧
      (∀ height, height ∈ (afterSaves saves).sortedHeights ↔ height ∈ savedHeights saves) ∧
      (∀ height, Finds saves { saved | saved ∈ savedHeights saves ∧ saved ≤ height }
        ((afterSaves saves).validatorSetAtHeight nil height)) ∧
      (Finds saves (savedHeights saves) ((afterSaves saves).latestValidatorSet nil) ↔
        saves = [] ∨ ∃ save ∈ saves, 0 < save.1) := by
  have holds := holds_afterSaves saves
  refine ⟨holds.strict.imp Int64.lt_iff_toInt_lt.mpr, holds.mem_sortedHeights,
    holds.validatorSetAtHeight nil, holds.latestValidatorSet_iff nil⟩

/-- The set saved at height `0` is active there and is not found as the latest one. -/
theorem genesis_set_not_latest :
    let s := afterSaves [(0, "genesis")]
    s.sortedHeights = [0] ∧ s.validatorSetAtHeight "" 0 = .ok "genesis" ∧
      s.latestValidatorSet "" = .error .notFound := by
  decide +kernel

end InMemoryValidatorSetStore

end Blockberry.Consensus
