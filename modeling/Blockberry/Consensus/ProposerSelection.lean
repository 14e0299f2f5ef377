import Mathlib.Algebra.BigOperators.Fin
import Blockberry.Lib.RoundRobin
import Blockberry.Lib.Run
import Blockberry.Consensus.Validators

/-!
# Weighted proposer selection

`GetProposer` returns the first validator of highest priority, and `IncrementProposerPriority`
raises all priorities by the voting powers and charges that validator the total. Over the integers
this is a run of the smooth weighted round robin; the window in which it keeps the priorities shows
that no addition overflows.
-/

namespace Blockberry.Consensus

open Machine RoundRobin List List

structure WeightedProposerSelection where
  validators : List Validator
  totalPower : Int64
  priorities : List Int64
  lastProposer : Int
  deriving DecidableEq, Repr

def newWeightedProposerSelection (validators : List Validator) :
    WeightedProposerSelection where
  validators
  totalPower := (validators.map Validator.votingPower).foldl (· + ·) 0
  priorities := replicate validators.length 0
  lastProposer := -1

def highestPriorityFrom : List Int64 → Nat → Int64 → Nat → Nat
  | [], _, _, maxIdx => maxIdx
  | p :: rest, i, maxPriority, maxIdx =>
    if p > maxPriority then
      highestPriorityFrom rest (i + 1) p i
    else
      highestPriorityFrom rest (i + 1) maxPriority maxIdx

namespace WeightedProposerSelection

variable (wps : WeightedProposerSelection)

/-- Index of the first validator of highest priority. -/
def proposerIdx : Nat :=
  highestPriorityFrom wps.priorities 0 (wps.priorities.headD 0) 0

def getProposer : Option Validator :=
  if wps.validators.length = 0 then none
  else wps.validators[wps.proposerIdx]?

def incrementProposerPriority : WeightedProposerSelection :=
  if wps.validators.length = 0 then wps
  else
    let raised := zipWith (· + ·) wps.priorities
      (wps.validators.map Validator.votingPower)
    { wps with
      priorities := raised.modify wps.proposerIdx (· - wps.totalPower)
      lastProposer := wps.proposerIdx }

/-- The selection before round `k`, after `k` rounds of `GetProposer` followed
by `IncrementProposerPriority`. -/
def afterRounds (validators : List Validator) (k : Nat) : WeightedProposerSelection :=
  Run.after (fun wps (_ : Unit) => wps.incrementProposerPriority)
    (newWeightedProposerSelection validators) (replicate k ())

/-- How many of the first `k` rounds returned the validator at a position. -/
def timesReturned (validators : List Validator) (k position : Nat) : Nat :=
  ((Finset.range k).filter fun r => (afterRounds validators r).proposerIdx = position).card

end WeightedProposerSelection

/-! ## The search loop -/

/-- The loop keeps an index into the prefix it has seen, at which the highest
priority of that prefix stands. -/
theorem highestPriorityFrom_spec (seen rest : List Int64) (maxPriority : Int64)
    (maxIdx : Nat) (found : seen[maxIdx]? = some maxPriority)
    (highest : ∀ p ∈ seen, p ≤ maxPriority) :
    ∃ p, (seen ++ rest)[highestPriorityFrom rest seen.length maxPriority maxIdx]? =
        some p ∧ ∀ q ∈ seen ++ rest, q ≤ p := by
  induction rest generalizing seen maxPriority maxIdx with
  | nil => simpa [highestPriorityFrom] using ⟨maxPriority, found, highest⟩
  | cons p rest ih =>
    have extend : seen ++ p :: rest = (seen ++ [p]) ++ rest := by simp
    have length : seen.length + 1 = (seen ++ [p]).length := by simp
    simp only [highestPriorityFrom]
    rw [extend, length]
    split
    next higher =>
      apply ih (seen ++ [p]) p seen.length (by simp)
      intro q member
      rcases mem_append.mp member with earlier | last
      · exact Int64.le_of_lt (Int64.lt_of_le_of_lt (highest q earlier) higher)
      · rw [mem_singleton.mp last]
        exact Int64.le_refl p
    next notHigher =>
      apply ih (seen ++ [p]) maxPriority maxIdx
      · rw [List.getElem?_append_left (List.getElem?_eq_some_iff.mp found).1]
        exact found
      · intro q member
        rcases mem_append.mp member with earlier | last
        · exact highest q earlier
        · rw [mem_singleton.mp last]
          exact Int64.not_lt.mp notHigher

namespace WeightedProposerSelection

/-- A priority over the integers, zero outside the slice. -/
def priorityAt (wps : WeightedProposerSelection) (position : Nat) : Int :=
  ((wps.priorities[position]?).map Int64.toInt).getD 0

theorem proposerIdx_spec {wps : WeightedProposerSelection} (nonempty : wps.priorities ≠ []) :
    wps.proposerIdx < wps.priorities.length ∧ ∀ position < wps.priorities.length,
        wps.priorityAt position ≤ wps.priorityAt wps.proposerIdx := by
  obtain ⟨first, rest, cons⟩ := exists_cons_of_ne_nil nonempty
  have search : wps.proposerIdx = highestPriorityFrom rest 1 first 0 := by
    simp [proposerIdx, cons, highestPriorityFrom]
  obtain ⟨p, found, highest⟩ := highestPriorityFrom_spec [first] rest first 0
    rfl (by simp)
  rw [length_singleton, ← search, singleton_append, ← cons] at found
  rw [singleton_append, ← cons] at highest
  refine ⟨(List.getElem?_eq_some_iff.mp found).1, ?_⟩
  intro position inBounds
  have le := highest wps.priorities[position] (getElem_mem inBounds)
  simpa [priorityAt, found, getElem?_eq_getElem inBounds] using Int64.le_iff_toInt_le.mp le

variable (validators : List Validator)

include validators

@[simp] theorem afterRounds_zero :
    afterRounds validators 0 = newWeightedProposerSelection validators := rfl

theorem afterRounds_succ (k : Nat) : afterRounds validators (k + 1) =
      (afterRounds validators k).incrementProposerPriority := by
  simp [afterRounds, replicate_succ']

/-- Rounds change neither the validators nor their total, and keep one priority
for each validator. -/
theorem afterRounds_shape (k : Nat) : (afterRounds validators k).validators = validators ∧
      (afterRounds validators k).totalPower = (newWeightedProposerSelection validators).totalPower ∧
      (afterRounds validators k).priorities.length = validators.length := by
  induction k with
  | zero => simp [newWeightedProposerSelection]
  | succ k ih =>
    rcases ih with ⟨sameValidators, sameTotal, sameLength⟩
    rw [afterRounds_succ, incrementProposerPriority]
    split
    next => exact ⟨sameValidators, sameTotal, sameLength⟩
    next => exact ⟨sameValidators, sameTotal, by simp [sameValidators, sameLength]⟩

theorem timesReturned_succ (k position : Nat) : timesReturned validators (k + 1) position =
      timesReturned validators k position +
        if (afterRounds validators k).proposerIdx = position then 1 else 0 := by
  simp only [timesReturned, Finset.range_add_one, Finset.filter_insert]
  split
  next => rw [Finset.card_insert_of_notMem (by simp)]
  next => simp

omit validators

section Refinement

variable {validators : List Validator}

/-- The weights of the round robin: voting powers by position. -/
def weight (validators : List Validator) (i : Fin validators.length) : Int :=
  validators[i].votingPower.toInt

/-- Total power of a validator list over the integers. -/
def totalOf (validators : List Validator) : Int :=
  exactSum (validators.map Validator.votingPower)

theorem total_weight (validators : List Validator) :
    total (weight validators) = totalOf validators := by
  simp only [total, weight, totalOf, exactSum, map_map]
  rw [← sum_ofFn]
  congr 1
  apply ext_getElem <;> simp

variable (nonempty : validators ≠ [])
variable (positive : ∀ v ∈ validators, 0 < v.votingPower.toInt)
variable (bounded : (validators.length + 1) * totalOf validators ≤ 2 ^ 63 - 1)

include positive in
theorem weight_pos (i : Fin validators.length) : 0 < weight validators i :=
  positive _ (getElem_mem i.isLt)

include nonempty positive in
theorem totalOf_pos : 0 < totalOf validators := by
  rw [← total_weight]
  have first : Fin validators.length := ⟨0, length_pos_iff.mpr nonempty⟩
  exact (weight_pos positive first).trans_le
    (weight_le_total (fun i => (weight_pos positive i).le) first)

include nonempty positive bounded in
theorem toInt_totalPower :
    (newWeightedProposerSelection validators).totalPower.toInt = totalOf validators := by
  have pos := totalOf_pos nonempty positive
  have distributed : (validators.length + 1) * totalOf validators =
      validators.length * totalOf validators + totalOf validators := by ring
  have lengthNonneg : 0 ≤ validators.length * totalOf validators := by positivity
  simp only [newWeightedProposerSelection]
  rw [toInt_foldl_add, Int64.toInt_zero, zero_add, ← totalOf]
  exact wrap_of_inRange ⟨by omega, by omega⟩

include nonempty positive bounded in
/-- In the window of the round robin, raising a priority by the power and
charging it the total both stay in the `int64` range. -/
theorem raise_inRange {k : Nat} {priority : Fin validators.length → Int}
    {count : Fin validators.length → Nat}
    (reached : Reaches (weight validators) k priority count)
    (i : Fin validators.length) :
    InRange (priority i + weight validators i) ∧
      InRange (priority i + weight validators i - totalOf validators) := by
  have nonneg : ∀ j, 0 ≤ weight validators j := fun j => (weight_pos positive j).le
  have lower := reached.lower_bound nonneg i
  have upper := reached.upper_bound nonneg i
  have weightPos := weight_pos positive i
  have weightLe := weight_le_total nonneg i
  have totalPos := totalOf_pos nonempty positive
  rw [total_weight] at lower upper weightLe
  rw [Fintype.card_fin] at upper
  have upperEq : ((validators.length : Int) - 2) * totalOf validators =
      validators.length * totalOf validators - 2 * totalOf validators := by ring
  have boundEq : (validators.length + 1) * totalOf validators =
      validators.length * totalOf validators + totalOf validators := by ring
  rw [upperEq] at upper
  rw [boundEq] at bounded
  have totalLe : totalOf validators ≤ validators.length * totalOf validators := by
    have one : 1 ≤ (validators.length : Int) := by
      exact_mod_cast length_pos_iff.mpr nonempty
    nlinarith
  exact ⟨⟨by omega, by omega⟩, ⟨by omega, by omega⟩⟩

include nonempty positive bounded in
theorem priorityAt_increment {wps : WeightedProposerSelection}
    (sameValidators : wps.validators = validators)
    (sameTotal : wps.totalPower = (newWeightedProposerSelection validators).totalPower)
    (sameLength : wps.priorities.length = validators.length)
    {k : Nat} {count : Fin validators.length → Nat}
    (reached : Reaches (weight validators) k (fun i => wps.priorityAt i) count)
    (i : Fin validators.length) :
    wps.incrementProposerPriority.priorityAt i = wps.priorityAt i + weight validators i -
        if i.val = wps.proposerIdx then totalOf validators else 0 := by
  have lengthNe : validators.length ≠ 0 := fun zero =>
    nonempty (length_eq_zero_iff.mp zero)
  have totalEq := toInt_totalPower nonempty positive bounded
  rcases raise_inRange nonempty positive bounded reached i with ⟨raised, charged⟩
  have inBounds : i.val < wps.priorities.length := by rw [sameLength]; exact i.isLt
  have slot : wps.priorities[i.val]? = some wps.priorities[i.val] :=
    getElem?_eq_getElem inBounds
  have slotAt : wps.priorityAt i = wps.priorities[i.val].toInt := by
    simp [priorityAt, slot]
  simp only [weight, Fin.getElem_fin, slotAt] at raised charged ⊢
  have add := toInt_add_of_inRange raised
  simp only [incrementProposerPriority, sameValidators, if_neg lengthNe, priorityAt,
    getElem?_modify, getElem?_zipWith, getElem?_map, slot,
    getElem?_eq_getElem i.isLt, Option.map_some, sameTotal]
  split
  next chosen =>
    rw [if_pos chosen.symm]
    simp only [Functor.map, Option.map_some, Option.getD_some]
    rw [toInt_sub_of_inRange (by rw [add, totalEq]; exact charged), add, totalEq]
  next other =>
    rw [if_neg (fun same => other same.symm)]
    simp [add]

include nonempty positive bounded in
theorem reaches_afterRounds (k : Nat) : Reaches (weight validators) k
      (fun i => (afterRounds validators k).priorityAt i)
      (fun i => timesReturned validators k i) := by
  induction k with
  | zero =>
    have zeroPriority : (fun i : Fin validators.length =>
        (newWeightedProposerSelection validators).priorityAt i) = fun _ => 0 := by
      funext i
      simp [newWeightedProposerSelection, priorityAt]
    simpa [timesReturned, zeroPriority] using Reaches.start
  | succ k ih =>
    rcases afterRounds_shape validators k with ⟨sameValidators, sameTotal, sameLength⟩
    have prioritiesNe : (afterRounds validators k).priorities ≠ [] := fun empty =>
      nonempty (length_eq_zero_iff.mp (by rw [← sameLength, empty]; rfl))
    rcases proposerIdx_spec prioritiesNe with ⟨inBounds, highest⟩
    rw [sameLength] at inBounds highest
    let chosen : Fin validators.length := ⟨_, inBounds⟩
    have maximal : ∀ i : Fin validators.length, (afterRounds validators k).priorityAt i ≤
          (afterRounds validators k).priorityAt chosen := fun i => highest i i.isLt
    have round := Reaches.round ih maximal
    convert round using 1
    · funext i
      rw [afterRounds_succ, priorityAt_increment nonempty positive bounded
        sameValidators sameTotal sameLength ih i]
      simp [advance, total_weight, chosen, Fin.ext_iff]
    · funext i
      rw [timesReturned_succ]
      by_cases returned : i = chosen
      · simp [returned, chosen]
      · have otherIdx : (afterRounds validators k).proposerIdx ≠ i := fun same =>
          returned (Fin.ext same.symm)
        simp [returned, otherIdx]

end Refinement

structure FairShare (validators : List Validator) (k position : Nat)
    (power : Int) : Prop where
  priority_eq : (afterRounds validators k).priorityAt position =
    k * power - timesReturned validators k position * totalOf validators
  lower : power - totalOf validators ≤ (afterRounds validators k).priorityAt position
  upper : (afterRounds validators k).priorityAt position ≤
    ((validators.length : Int) - 2) * totalOf validators + power
  raise_exact : InRange ((afterRounds validators k).priorityAt position + power)
  charge_exact :
    InRange ((afterRounds validators k).priorityAt position + power - totalOf validators)
  returned_le : timesReturned validators k position * totalOf validators ≤
    (k - 1) * power + totalOf validators
  full_cycle : (k : Int) = totalOf validators →
    (timesReturned validators k position : Int) = power ∧
      (afterRounds validators k).priorityAt position = 0

theorem fairShare {validators : List Validator} {k : Nat} (nonempty : validators ≠ [])
    (positive : ∀ v ∈ validators, 0 < v.votingPower.toInt)
    (bounded : (validators.length + 1) * totalOf validators ≤ 2 ^ 63 - 1)
    (i : Fin validators.length) :
    FairShare validators k i (weight validators i) := by
  have reached := reaches_afterRounds nonempty positive bounded k
  have nonneg : ∀ j, 0 ≤ weight validators j := fun j => (weight_pos positive j).le
  have raise := raise_inRange nonempty positive bounded reached i
  have full := fun fullCycle => And.intro
    (reached.count_full_cycle (weight_pos positive) fullCycle i)
    (reached.priority_full_cycle (weight_pos positive) fullCycle i)
  have upper := reached.upper_bound nonneg i
  rw [Fintype.card_fin] at upper
  rw [total_weight] at full upper
  constructor
  · simpa [total_weight] using reached.priority_eq i
  · simpa [total_weight] using reached.lower_bound nonneg i
  · exact upper
  · exact raise.1
  · exact raise.2
  · simpa [total_weight] using reached.count_mul_total_le nonneg i
  · exact full

theorem sum_priorities_eq_zero {validators : List Validator} (nonempty : validators ≠ [])
    (positive : ∀ v ∈ validators, 0 < v.votingPower.toInt)
    (bounded : (validators.length + 1) * totalOf validators ≤ 2 ^ 63 - 1) (k : Nat) :
    exactSum (afterRounds validators k).priorities = 0 := by
  have sameLength := (afterRounds_shape validators k).2.2
  have zeroSum := (reaches_afterRounds nonempty positive bounded k).sum_eq_zero
  rw [← sum_ofFn] at zeroSum
  rw [exactSum, ← zeroSum]
  congr 1
  apply ext_getElem
  · simp [sameLength]
  · intro position inBounds _
    rw [length_map] at inBounds
    simp [priorityAt, getElem?_eq_getElem inBounds]

end WeightedProposerSelection

open WeightedProposerSelection in
/-- Over every number of rounds `GetProposer` returns a validator in the list, the priorities sum to
zero and no `int64` operation overflows; after as many rounds as the total power each was returned
as often as its power says, and all priorities are zero again. -/
theorem weightedProposerSelection_fair (validators : List Validator) (nonempty : validators ≠ [])
    (positive : ∀ v ∈ validators, 0 < v.votingPower.toInt)
    (bounded : (validators.length + 1) * totalOf validators ≤ 2 ^ 63 - 1) (k : Nat) :
    (afterRounds validators k).totalPower.toInt = totalOf validators ∧
      (∃ v, validators[(afterRounds validators k).proposerIdx]? = some v ∧
        (afterRounds validators k).getProposer = some v) ∧
      exactSum (afterRounds validators k).priorities = 0 ∧
      ∀ (position : Nat) (v : Validator), validators[position]? = some v →
        FairShare validators k position v.votingPower.toInt := by
  rcases afterRounds_shape validators k with ⟨sameValidators, sameTotal, sameLength⟩
  have lengthPos : 0 < validators.length := length_pos_iff.mpr nonempty
  refine ⟨?_, ?_, sum_priorities_eq_zero nonempty positive bounded k, ?_⟩
  · rw [sameTotal]
    exact toInt_totalPower nonempty positive bounded
  · have prioritiesNe : (afterRounds validators k).priorities ≠ [] :=
      length_pos_iff.mp (sameLength ▸ lengthPos)
    have inBounds := (proposerIdx_spec prioritiesNe).1
    rw [sameLength] at inBounds
    refine ⟨_, List.getElem?_eq_getElem inBounds, ?_⟩
    rw [getProposer, sameValidators, if_neg lengthPos.ne']
    exact List.getElem?_eq_getElem inBounds
  · intro position v atPosition
    rcases List.getElem?_eq_some_iff.mp atPosition with ⟨inBounds, rfl⟩
    exact fairShare nonempty positive bounded ⟨position, inBounds⟩

def lightAndHeavy : List Validator :=
  [⟨0, [1], [1], 1, 0⟩, ⟨1, [2], [2], 3, 0⟩]

open WeightedProposerSelection in
theorem weightedProposerSelection_fair_lightAndHeavy :
    exactSum (afterRounds lightAndHeavy 4).priorities = 0 ∧
      (timesReturned lightAndHeavy 4 1 : Int) = 3 := by
  have fair := weightedProposerSelection_fair lightAndHeavy (by decide) (by decide)
    (by decide) 4
  exact ⟨fair.2.2.1, ((fair.2.2.2 1 _ rfl).full_cycle (by decide)).1⟩

end Blockberry.Consensus
