import Mathlib.Data.Set.Card
import Blockberry.Lib.Machine

/-!
# Pruning of state versions

`PruneVersions` deletes a range of versions from below. With checkpoints it stops at the highest
version below the limit that is to be kept, and deletes lower ones that are to be kept as well;
without them it does not ask, and the recent versions are not spared.
-/

namespace Blockberry.StateStore

open Int64 List

structure StatePruneConfig where
  keepRecent : Int64
  keepEvery : Int64
  interval : Int
  enabled : Bool
  deriving DecidableEq, Repr

namespace StatePruneConfig

def validate : Option StatePruneConfig → Option String
  | none => none
  | some c =>
    if c.keepRecent < 0 then some "keep_recent cannot be negative"
    else if c.keepEvery < 0 then some "keep_every cannot be negative"
    else if c.interval < 0 then some "interval cannot be negative"
    else none

def shouldKeep : Option StatePruneConfig → Int64 → Int64 → Bool
  | none, _, _ => true
  | some c, version, currentVersion =>
    if !c.enabled then true
    else if 0 < c.keepRecent ∧ currentVersion - c.keepRecent < version then true
    else if 0 < c.keepEvery ∧ version % c.keepEvery = 0 then true
    else false

end StatePruneConfig

open StatePruneConfig

inductive StatePruneError where
  | invalidPruneVersion
  | exceedsCurrentVersion (version currentVersion : Int64)
  | statePruningInProgress
  | gettingVersions
  | deletingVersions (version : Int64)
  | gettingVersionsAfterPrune
  deriving DecidableEq, Repr

/-- `StatePruneResult` without the time that pruning took. -/
structure StatePruneResult where
  prunedCount : Int64
  oldestVersion : Int64
  newestVersion : Int64
  deriving DecidableEq, Repr

/-- The version of a `MutableTree` and the versions that can be loaded, which are numbered
from 1 and listed in order. -/
structure TreeVersions where
  version : Int64
  available : List Int64
  increasing : available.Pairwise (· < ·)
  pos : ∀ v ∈ available, 0 < v

def TreeVersions.deleteVersionsTo (t : TreeVersions) (last : Int64) : TreeVersions where
  version := t.version
  available := t.available.filter fun v => last < v
  increasing := t.increasing.filter _
  pos := fun v member => t.pos v (mem_of_mem_filter member)

/-- The calls of the tree that may fail. -/
inductive TreeCall where
  | availableVersions
  | deleteVersionsTo
  | availableVersionsAfter
  deriving DecidableEq, Repr

/-- What pruning uses of an `IAVLStore`. -/
structure VersionedStore where
  tree : TreeVersions
  pruneCfg : Option StatePruneConfig
  pruning : Bool

namespace VersionedStore

def setStatePruneConfig (s : VersionedStore) (cfg : Option StatePruneConfig) : VersionedStore :=
  { s with pruneCfg := cfg }

/-- The search of `PruneVersions`, downwards from `v`. -/
def findCheckpoint (keep : Int64 → Bool) : Nat → Int64 → Option Int64
  | 0, _ => none
  | rounds + 1, v =>
    if 0 < v then
      if keep v then some v else findCheckpoint keep rounds (v - 1)
    else none

/-- The version below which `PruneVersions` deletes. -/
def pruneTarget (s : VersionedStore) (beforeVersion : Int64) : Int64 :=
  match s.pruneCfg with
  | none => beforeVersion
  | some c =>
    if 0 < c.keepEvery then
      (findCheckpoint (fun v => shouldKeep (some c) v s.tree.version)
        beforeVersion.toInt.toNat (beforeVersion - 1)).getD beforeVersion
    else beforeVersion

def countBelow (target : Int64) (versions : List Int64) : Int64 :=
  versions.foldl (fun count v => if v < target then count + 1 else count) 0

def pruneVersions (s : VersionedStore) (fails : TreeCall → Bool) (beforeVersion : Int64) :
    VersionedStore × Except StatePruneError StatePruneResult :=
  if beforeVersion ≤ 0 then (s, .error .invalidPruneVersion)
  else if s.tree.version < beforeVersion then
    (s, .error (.exceedsCurrentVersion beforeVersion s.tree.version))
  else if s.pruning then (s, .error .statePruningInProgress)
  else if fails .availableVersions then (s, .error .gettingVersions)
  else if s.tree.available = [] then (s, .ok ⟨0, 0, s.tree.version⟩)
  else
    let target := s.pruneTarget beforeVersion
    if 1 < target ∧ fails .deleteVersionsTo then (s, .error (.deletingVersions (target - 1)))
    else
      let after :=
        if 1 < target then { s with tree := s.tree.deleteVersionsTo (target - 1) } else s
      if fails .availableVersionsAfter then (after, .error .gettingVersionsAfterPrune)
      else
        (after, .ok ⟨countBelow target s.tree.available, after.tree.available.headD 0,
          s.tree.version⟩)

section Search

variable {keep : Int64 → Bool} {rounds : Nat} {v w : Int64}

theorem toInt_sub_one (pos : 0 < v) : (v - 1).toInt = v.toInt - 1 := by
  rw [lt_iff_toInt_lt, toInt_zero] at pos
  have bound := v.toInt_lt
  have inRange : Machine.InRange (v.toInt - (1 : Int64).toInt) := by
    rw [toInt_one]
    constructor <;> omega
  rw [Machine.toInt_sub_of_inRange inRange, toInt_one]

theorem lt_iff_le_sub_one (pos : 0 < v) : w < v ↔ w ≤ v - 1 := by
  rw [lt_iff_toInt_lt, le_iff_toInt_le, toInt_sub_one pos]
  exact Int.le_sub_one_iff.symm

theorem findCheckpoint_eq_some (enough : v.toInt ≤ rounds)
    (found : findCheckpoint keep rounds v = some w) :
    0 < w ∧ w ≤ v ∧ keep w = true ∧ ∀ u, w < u → u ≤ v → keep u = false := by
  induction rounds generalizing v with
  | zero => cases found
  | succ rounds ih =>
    rw [findCheckpoint] at found
    split at found
    next pos =>
      split at found
      next kept =>
        cases found
        exact ⟨pos, Int64.le_refl _, kept, fun u above below =>
          absurd below (Int64.not_le.mpr above)⟩
      next notKept =>
        have shorter : (v - 1).toInt ≤ rounds := by
          rw [toInt_sub_one pos]
          omega
        obtain ⟨posFound, below, kept, highest⟩ := ih shorter found
        refine ⟨posFound, Int64.le_of_lt ((lt_iff_le_sub_one pos).mpr below), kept, ?_⟩
        intro u above atMost
        rcases Int64.lt_or_eq_of_le atMost with less | rfl
        · exact highest u above ((lt_iff_le_sub_one pos).mp less)
        · exact Bool.eq_false_of_not_eq_true notKept
    next => cases found

theorem findCheckpoint_eq_none (enough : v.toInt ≤ rounds)
    (found : findCheckpoint keep rounds v = none) : ∀ u, 0 < u → u ≤ v → keep u = false := by
  induction rounds generalizing v with
  | zero =>
    intro u pos atMost
    rw [lt_iff_toInt_lt, toInt_zero] at pos
    rw [le_iff_toInt_le] at atMost
    omega
  | succ rounds ih =>
    rw [findCheckpoint] at found
    split at found
    next pos =>
      split at found
      next => cases found
      next notKept =>
        have shorter : (v - 1).toInt ≤ rounds := by
          rw [toInt_sub_one pos]
          omega
        intro u posOther atMost
        rcases Int64.lt_or_eq_of_le atMost with less | rfl
        · exact ih shorter found u posOther ((lt_iff_le_sub_one pos).mp less)
        · exact Bool.eq_false_of_not_eq_true notKept
    next notPos =>
      intro u pos atMost
      exact absurd (Int64.lt_of_lt_of_le pos atMost) notPos

end Search

section Target

variable {s after : VersionedStore} {before : Int64} {cfg : StatePruneConfig}

theorem toInt_sub_one_le (pos : 0 < before) : (before - 1).toInt ≤ (before.toInt.toNat : Int) := by
  rw [toInt_sub_one pos]
  rw [lt_iff_toInt_lt, toInt_zero] at pos
  omega

theorem pruneTarget_bounds (pos : 0 < before) :
    0 < s.pruneTarget before ∧ s.pruneTarget before ≤ before := by
  have whole : 0 < before ∧ before ≤ before := ⟨pos, Int64.le_refl _⟩
  unfold pruneTarget
  split
  next => exact whole
  next c _ =>
    split
    next =>
      cases found : findCheckpoint (fun v => shouldKeep (some c) v s.tree.version)
          before.toInt.toNat (before - 1) with
      | none => exact whole
      | some w =>
        have isFound := findCheckpoint_eq_some (toInt_sub_one_le pos) found
        exact ⟨isFound.1, Int64.le_of_lt ((lt_iff_le_sub_one pos).mpr isFound.2.1)⟩
    next => exact whole

theorem pruneTarget_le_iff (configured : s.pruneCfg = some cfg) (pos : 0 < before) {v : Int64}
    (posVersion : 0 < v) (below : v < before)
    (kept : shouldKeep s.pruneCfg v s.tree.version = true) :
    s.pruneTarget before ≤ v ↔ 0 < cfg.keepEvery ∧ ∀ w, v < w → w < before →
        shouldKeep s.pruneCfg w s.tree.version = false := by
  have notBelow : ¬before ≤ v := Int64.not_le.mpr below
  rw [configured] at kept ⊢
  simp only [pruneTarget, configured]
  split
  next everySet =>
    cases found : findCheckpoint (fun v => shouldKeep (some cfg) v s.tree.version)
        before.toInt.toNat (before - 1) with
    | none =>
      have none := findCheckpoint_eq_none (toInt_sub_one_le pos) found v posVersion
        ((lt_iff_le_sub_one pos).mp below)
      rw [kept] at none
      cases none
    | some w =>
      obtain ⟨-, atMost, keptFound, highest⟩ := findCheckpoint_eq_some (toInt_sub_one_le pos) found
      constructor
      · intro spared
        refine ⟨everySet, fun u above less => ?_⟩
        exact highest u (Int64.lt_of_le_of_lt spared above) ((lt_iff_le_sub_one pos).mp less)
      · intro onlyOne
        apply Int64.not_lt.mp
        intro above
        have other := onlyOne.2 w above ((lt_iff_le_sub_one pos).mpr atMost)
        rw [keptFound] at other
        cases other
  next noEvery =>
    constructor
    · intro spared
      exact absurd spared notBelow
    · intro onlyOne
      exact absurd onlyOne.1 noEvery

end Target

theorem countBelow_eq (target : Int64) (versions : List Int64) :
    countBelow target versions = Int64.ofNat (versions.filter fun v => v < target).length := by
  suffices general : ∀ start,
      versions.foldl (fun count v => if v < target then count + 1 else count) start =
        start + Int64.ofNat (versions.filter fun v => v < target).length by
    rw [countBelow, general, Int64.zero_add]
  induction versions with
  | nil => simp
  | cons v versions ih =>
    intro start
    rw [foldl_cons, ih]
    by_cases below : v < target
    · rw [if_pos below, filter_cons_of_pos (by simpa using below), length_cons,
        Int64.ofNat_add, Int64.add_assoc]
      congr 1
      exact Int64.add_comm _ _
    · rw [if_neg below, filter_cons_of_neg (by simpa using below)]

section Outcome

variable {s after : VersionedStore} {before : Int64} {result : StatePruneResult}
  {fails : TreeCall → Bool}

/-- What a successful `PruneVersions` does. -/
structure Pruned (s : VersionedStore) (before : Int64) (after : VersionedStore)
    (result : StatePruneResult) : Prop where
  pos : 0 < before
  atMost : before ≤ s.tree.version
  available : ∀ v, v ∈ after.tree.available ↔
    v ∈ s.tree.available ∧ s.pruneTarget before ≤ v
  prunedCount : result.prunedCount =
    Int64.ofNat (s.tree.available.filter fun v => v < s.pruneTarget before).length

theorem mem_deleteVersionsTo {t : TreeVersions} {target v : Int64} (pos : 0 < target) :
    v ∈ (t.deleteVersionsTo (target - 1)).available ↔ v ∈ t.available ∧ target ≤ v := by
  rw [TreeVersions.deleteVersionsTo, mem_filter, decide_eq_true_eq, ← Int64.not_le,
    ← lt_iff_le_sub_one pos, Int64.not_lt]

theorem target_le_of_available {t : TreeVersions} {target v : Int64} (atMost : ¬1 < target)
    (member : v ∈ t.available) : target ≤ v := by
  have pos := t.pos v member
  rw [lt_iff_toInt_lt, toInt_one] at atMost
  rw [lt_iff_toInt_lt, toInt_zero] at pos
  rw [le_iff_toInt_le]
  omega

theorem pruned_of_ok (isOk : s.pruneVersions fails before = (after, .ok result)) :
    Pruned s before after result := by
  unfold pruneVersions at isOk
  split at isOk
  next => cases isOk
  next notNonpos =>
    have pos := Int64.not_le.mp notNonpos
    split at isOk
    next => cases isOk
    next bound =>
      have atMost := Int64.not_lt.mp bound
      split at isOk
      next => cases isOk
      split at isOk
      next => cases isOk
      split at isOk
      next nothing =>
        cases isOk
        exact ⟨pos, atMost, by simp [nothing], by simp [nothing]⟩
      next =>
        simp only at isOk
        split at isOk
        next => cases isOk
        split at isOk
        next => cases isOk
        cases isOk
        refine ⟨pos, atMost, ?_, countBelow_eq _ _⟩
        intro v
        split
        next => exact mem_deleteVersionsTo (pruneTarget_bounds pos).1
        next small => exact ⟨fun member =>
            ⟨member, target_le_of_available small member⟩, And.left⟩

theorem Pruned.toInt_prunedCount (pruned : Pruned s before after result) :
    result.prunedCount.toInt =
      {v | v ∈ s.tree.available ∧ v ∉ after.tree.available}.ncard := by
  have nodup : (s.tree.available.filter fun v => v < s.pruneTarget before).Nodup :=
    (s.tree.increasing.imp Int64.ne_of_lt).filter _
  have bound := Machine.length_lt_of_pos nodup fun v member =>
    s.tree.pos v (mem_of_mem_filter member)
  have gone : {v | v ∈ s.tree.available ∧ v ∉ after.tree.available} =
      ((s.tree.available.filter fun v => v < s.pruneTarget before).toFinset : Set Int64) := by
    apply Set.ext
    intro v
    simp +contextual [pruned.available v]
  rw [pruned.prunedCount, toInt_ofNat_of_lt bound, gone, Set.ncard_coe_finset,
    toFinset_card_of_nodup nodup]

end Outcome

/-- `PruneVersions` reports the number of versions that disappear, and it spares those that the
configuration keeps if and only if every one of them available below the limit is the highest there,
with checkpoints configured. -/
theorem pruneVersions_keeps_iff {s after : VersionedStore} {cfg : StatePruneConfig}
    {fails : TreeCall → Bool} {before : Int64} {result : StatePruneResult}
    (isOk : (s.setStatePruneConfig (some cfg)).pruneVersions fails before = (after, .ok result)) :
    result.prunedCount.toInt =
        {v | v ∈ s.tree.available ∧ v ∉ after.tree.available}.ncard ∧
      ((∀ v ∈ s.tree.available,
          StatePruneConfig.shouldKeep (some cfg) v s.tree.version = true →
            v ∈ after.tree.available) ↔
        ∀ v ∈ s.tree.available,
          StatePruneConfig.shouldKeep (some cfg) v s.tree.version = true → v < before →
            0 < cfg.keepEvery ∧ ∀ w, v < w → w < before →
              StatePruneConfig.shouldKeep (some cfg) w s.tree.version = false) := by
  have pruned := pruned_of_ok isOk
  have spares {v : Int64} (member : v ∈ s.tree.available) (below : v < before) :=
    pruneTarget_le_iff (s := s.setStatePruneConfig (some cfg)) rfl pruned.pos
      (s.tree.pos v member) below
  refine ⟨pruned.toInt_prunedCount, ?_⟩
  constructor
  · intro spared v member kept below
    apply (spares member below kept).mp
    exact ((pruned.available v).mp (spared v member kept)).2
  · intro onlyOne v member kept
    apply (pruned.available v).mpr
    refine ⟨member, ?_⟩
    by_cases below : v < before
    · apply (spares member below kept).mpr
      exact onlyOne v member kept below
    · exact Int64.le_trans (pruneTarget_bounds pruned.pos).2 (Int64.not_lt.mp below)

def fiveVersions : VersionedStore where
  tree :=
    { version := 5
      available := [1, 2, 3, 4, 5]
      increasing := by decide
      pos := by
        simp only [forall_mem_cons, not_mem_nil, false_implies, implies_true, and_true]
        decide }
  pruneCfg := none
  pruning := false

/-- The store after `PruneVersions(5)` under a configuration. -/
def fivePruned (cfg : StatePruneConfig) : VersionedStore :=
  ((fiveVersions.setStatePruneConfig (some cfg)).pruneVersions (fun _ => false) 5).1

/-- With every fourth version kept, three of five disappear. -/
theorem pruneVersions_keeps_fourth :
    (fiveVersions.setStatePruneConfig (some ⟨0, 4, 0, true⟩)).pruneVersions (fun _ => false) 5 =
        (fivePruned ⟨0, 4, 0, true⟩, .ok ⟨3, 4, 5⟩) ∧
      {v | v ∈ fiveVersions.tree.available ∧
        v ∉ (fivePruned ⟨0, 4, 0, true⟩).tree.available}.ncard = 3 := by
  have isOk : (fiveVersions.setStatePruneConfig (some ⟨0, 4, 0, true⟩)).pruneVersions
      (fun _ => false) 5 = (fivePruned ⟨0, 4, 0, true⟩, .ok ⟨3, 4, 5⟩) := rfl
  refine ⟨isOk, ?_⟩
  have counted := (pruneVersions_keeps_iff isOk).1
  exact (Int.ofNat_inj.mp counted).symm

/-- Without checkpoints the three recent versions 3, 4 and 5 are to be kept, and `PruneVersions(5)`
deletes 3 and 4. -/
theorem pruneVersions_deletes_kept :
    StatePruneConfig.validate (some ⟨3, 0, 0, true⟩) = none ∧
      (∀ v ∈ [3, 4], v ∈ fiveVersions.tree.available ∧
        StatePruneConfig.shouldKeep (some ⟨3, 0, 0, true⟩) v 5 = true ∧
        v ∉ (fivePruned ⟨3, 0, 0, true⟩).tree.available) ∧
      (fiveVersions.setStatePruneConfig (some ⟨3, 0, 0, true⟩)).pruneVersions (fun _ => false) 5 =
        (fivePruned ⟨3, 0, 0, true⟩, .ok ⟨4, 5, 5⟩) := by
  refine ⟨by decide, ?_, rfl⟩
  simp only [List.forall_mem_cons, List.not_mem_nil, false_implies, implies_true, and_true]
  decide

end VersionedStore

end Blockberry.StateStore
