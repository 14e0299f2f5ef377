import Blockberry.BlockStore.Archive

/-!
# Invariants of archives

`Valid` says how the metadata bounds the stored heights, for positive heights. `Linked` says that
heights and records refer to each other. `Consistent` is both, for runs in which the hashes of
different heights are different.
-/

namespace Blockberry

open List Function Classical

namespace Archive

variable {a : Archive} {h before newBase : Int64} {hash data : Bytes}

theorem exists_firstKept (a : Archive) (before : Int64) :
    ∃ newBase, a.FirstKept before newBase := by
  by_cases any : ∃ h, a.InWindow before h ∧ a.kept h = true
  · let position (h : Int64) : Nat := (h.toInt + 2 ^ 63).toNat
    have wellFounded : WellFounded fun left right => position left < position right :=
      (measure position).wf
    obtain ⟨lowest, ⟨inWindow, isKept⟩, minimal⟩ :=
      wellFounded.has_min {h | a.InWindow before h ∧ a.kept h = true} any
    refine ⟨lowest, ?_, .inr ⟨inWindow, isKept⟩⟩
    intro h otherInWindow otherKept
    have notBelow := minimal h ⟨otherInWindow, otherKept⟩
    have lower := h.le_toInt
    have lower' := lowest.le_toInt
    rw [Int64.le_iff_toInt_le]
    simp only [position] at notBelow
    omega
  · refine ⟨before, ?_, .inl rfl⟩
    intro h inWindow isKept
    exact absurd ⟨h, inWindow, isKept⟩ any

theorem firstKept_firstKept (a : Archive) (before : Int64) :
    a.FirstKept before (a.firstKept before) :=
  epsilon_spec (a.exists_firstKept before)

/-! ## The metadata -/

/-- The metadata heights bound the stored ones, and the greatest is stored. -/
structure Valid (a : Archive) : Prop where
  pos : ∀ h, a.hasBlock h = true → 0 < h
  base_le : ∀ h, a.hasBlock h = true → a.base ≤ h
  le_height : ∀ h, a.hasBlock h = true → h ≤ a.height
  height_stored : a.height = 0 ∨ a.hasBlock a.height = true
  base_nonneg : 0 ≤ a.base
  started : a.base = 0 ↔ a.height = 0

theorem valid_empty : Valid empty where
  pos _ stored := by cases stored
  base_le _ stored := by cases stored
  le_height _ stored := by cases stored
  height_stored := .inl rfl
  base_nonneg := Int64.le_refl _
  started := Iff.rfl

theorem hasBlock_put (a : Archive) (h query : Int64) (hash data : Bytes) :
    (a.put h hash data).hasBlock query = (query == h || a.hasBlock query) := by
  by_cases same : query = h
  · simp [hasBlock, put, same]
  · simp [hasBlock, put, same]

theorem height_put_eq (a : Archive) (h : Int64) (hash data : Bytes) :
    (a.put h hash data).height = h ∧ a.height ≤ h ∨
      (a.put h hash data).height = a.height ∧ h ≤ a.height := by
  by_cases higher : a.height < h
  · exact .inl ⟨if_pos higher, Int64.le_of_lt higher⟩
  · exact .inr ⟨if_neg higher, Int64.not_lt.mp higher⟩

theorem base_put_eq (a : Archive) (h : Int64) (hash data : Bytes) :
    (a.put h hash data).base = h ∧ (a.base = 0 ∨ h ≤ a.base) ∨
      (a.put h hash data).base = a.base ∧ a.base ≠ 0 ∧ a.base ≤ h := by
  by_cases lower : a.base = 0 ∨ h < a.base
  · exact .inl ⟨if_pos lower, lower.imp_right Int64.le_of_lt⟩
  · exact .inr ⟨if_neg lower, fun zero => lower (.inl zero),
      Int64.not_lt.mp fun below => lower (.inr below)⟩

theorem hasBlock_erase_iff {gone : Int64 → Prop} :
    (a.erase gone).hasBlock h = true ↔ a.hasBlock h = true ∧ ¬gone h := by
  unfold hasBlock
  by_cases isGone : gone h
  · simp [entry_erase_of_gone isGone, isGone]
  · simp [entry_erase_of_not_gone isGone, isGone]

theorem hasBlock_prune_iff (prunable : a.Prunable before) (room : a.base < before) :
    (a.prune before).hasBlock h = true ↔ a.hasBlock h = true ∧ ¬a.Removes before h := by
  rw [← hasBlock_erase_iff, hasBlock, entry_prune prunable room]
  rfl

theorem Prunable.height_ne_zero (prunable : a.Prunable before) : a.height ≠ 0 := by
  intro zero
  have above := Int64.lt_of_lt_of_le prunable.1 prunable.2
  rw [zero] at above
  exact Int64.lt_irrefl above

namespace Valid

theorem base_ne_zero (valid : Valid a) (stored : a.hasBlock h = true) : a.base ≠ 0 := by
  intro zero
  have below := valid.le_height h stored
  rw [valid.started.mp zero] at below
  exact Int64.lt_irrefl (Int64.lt_of_lt_of_le (valid.pos h stored) below)

theorem put (valid : Valid a) (pos : 0 < h) (hash data : Bytes) : Valid (a.put h hash data) := by
  have height := a.height_put_eq h hash data
  have base := a.base_put_eq h hash data
  have stored (query : Int64) (found : (a.put h hash data).hasBlock query = true) :
      query = h ∨ a.hasBlock query = true := by
    rw [hasBlock_put] at found
    simpa using found
  have ne_zero : h ≠ 0 := by
    rintro rfl
    exact Int64.lt_irrefl pos
  constructor
  · intro query found
    rcases stored query found with rfl | before
    · exact pos
    · exact valid.pos query before
  · intro query found
    rcases stored query found with rfl | before
    · rcases base with ⟨isNew, -⟩ | ⟨isOld, -, below⟩
      · rw [isNew]
        exact Int64.le_refl _
      · rwa [isOld]
    · rcases base with ⟨isNew, zero | below⟩ | ⟨isOld, -, -⟩
      · exact absurd zero (valid.base_ne_zero before)
      · rw [isNew]
        exact Int64.le_trans below (valid.base_le query before)
      · rw [isOld]
        exact valid.base_le query before
  · intro query found
    rcases height with ⟨isNew, above⟩ | ⟨isOld, above⟩
    · rw [isNew]
      rcases stored query found with rfl | before
      · exact Int64.le_refl _
      · exact Int64.le_trans (valid.le_height query before) above
    · rw [isOld]
      rcases stored query found with rfl | before
      · exact above
      · exact valid.le_height query before
  · rw [hasBlock_put]
    rcases height with ⟨isNew, -⟩ | ⟨isOld, -⟩
    · simp [isNew]
    · rw [isOld]
      exact valid.height_stored.imp_right fun found => by simp [found]
  · rcases base with ⟨isNew, -⟩ | ⟨isOld, -, -⟩
    · rw [isNew]
      exact Int64.le_of_lt pos
    · rw [isOld]
      exact valid.base_nonneg
  · have base_ne : (a.put h hash data).base ≠ 0 := by
      rcases base with ⟨isNew, -⟩ | ⟨isOld, ne, -⟩
      · rwa [isNew]
      · rwa [isOld]
    have height_ne : (a.put h hash data).height ≠ 0 := by
      rcases height with ⟨isNew, -⟩ | ⟨isOld, above⟩
      · rwa [isNew]
      · rw [isOld]
        intro zero
        rw [zero] at above
        exact Int64.lt_irrefl (Int64.lt_of_lt_of_le pos above)
    exact ⟨fun zero => absurd zero base_ne, fun zero => absurd zero height_ne⟩

theorem erase (valid : Valid a) {gone : Int64 → Prop} (stays : ¬gone a.height) :
    Valid (a.erase gone) where
  pos query found := valid.pos query (hasBlock_erase_iff.mp found).1
  base_le query found := valid.base_le query (hasBlock_erase_iff.mp found).1
  le_height query found := valid.le_height query (hasBlock_erase_iff.mp found).1
  height_stored := by
    rcases valid.height_stored with zero | stored
    · exact .inl zero
    · exact .inr (hasBlock_erase_iff.mpr ⟨stored, stays⟩)
  base_nonneg := valid.base_nonneg
  started := valid.started

theorem base_firstKept_le (valid : Valid a) (prunable : a.Prunable before)
    (room : a.base < before) (stored : (a.prune before).hasBlock h = true) :
    a.firstKept before ≤ h := by
  have first := a.firstKept_firstKept before
  obtain ⟨earlier, stays⟩ := (hasBlock_prune_iff prunable room).mp stored
  by_cases below : h < before
  · have inWindow : a.InWindow before h := ⟨valid.base_le h earlier, below, earlier⟩
    have isKept : a.kept h = true := by
      by_contra notKept
      exact stays ⟨inWindow, Bool.eq_false_of_not_eq_true notKept⟩
    exact first.le_kept h inWindow isKept
  · exact Int64.le_trans first.le_before (Int64.not_lt.mp below)

theorem height_stays (prunable : a.Prunable before) : ¬a.Removes before a.height := by
  intro removed
  exact Int64.lt_irrefl (Int64.lt_of_lt_of_le removed.1.2.1 prunable.2)

theorem firstKept_ne_zero (valid : Valid a) (prunable : a.Prunable before)
    (room : a.base < before) : a.firstKept before ≠ 0 := by
  intro zero
  have below := (a.firstKept_firstKept before).base_le room
  rw [zero] at below
  have zeroHeight := valid.started.mp (Int64.le_antisymm below valid.base_nonneg)
  exact prunable.height_ne_zero zeroHeight

theorem prune (valid : Valid a) (before : Int64) : Valid (a.prune before) := by
  by_cases possible : a.Prunable before ∧ a.base < before
  · obtain ⟨prunable, room⟩ := possible
    have first := a.firstKept_firstKept before
    have left := valid.erase (height_stays prunable)
    have base_le : ∀ h, (a.prune before).hasBlock h = true → a.firstKept before ≤ h :=
      fun h stored => valid.base_firstKept_le prunable room stored
    have started : a.firstKept before = 0 ↔ a.height = 0 :=
      iff_of_false (valid.firstKept_ne_zero prunable room) prunable.height_ne_zero
    rw [prune_eq prunable room] at base_le ⊢
    exact ⟨left.pos, base_le, left.le_height, left.height_stored,
      Int64.le_trans valid.base_nonneg (first.base_le room), started⟩
  · rwa [prune_of_not possible]

theorem step (valid : Valid a) {op : StoreOp} (positive : op.Positive) (checked : Bool) :
    Valid (a.step checked op) := by
  cases op with
  | saveBlock h hash data =>
    rcases save_cases checked a h hash data with refused | ⟨-, -, saved⟩
    · rw [Archive.step, run, refused]
      exact valid
    · rw [Archive.step, run, saved]
      exact valid.put positive hash data
  | prune before => exact valid.prune before
  | setPruneConfig cfg => exact ⟨valid.1, valid.2, valid.3, valid.4, valid.5, valid.6⟩

end Valid

/-! ## Heights and records -/

/-- The call does not save a known hash at a free height. -/
def NoClash (a : Archive) : StoreOp → Prop
  | .saveBlock h hash _ => a.hasBlock h = true ∨ a.record hash = none
  | _ => True

/-- Every stored height has its record, and every record its height. -/
structure Linked (a : Archive) : Prop where
  record_of_entry : ∀ h hash, a.entry h = some hash → ∃ data, a.record hash = some (h, data)
  entry_of_record : ∀ hash h data, a.record hash = some (h, data) → a.entry h = some hash

theorem linked_empty : Linked empty where
  record_of_entry _ _ found := by cases found
  entry_of_record _ _ _ found := by cases found

namespace Linked

variable (linked : Linked a)

include linked

theorem height_eq {other : Int64} (left : a.entry h = some hash)
    (right : a.entry other = some hash) : h = other := by
  obtain ⟨data, found⟩ := linked.record_of_entry h hash left
  obtain ⟨data', found'⟩ := linked.record_of_entry other hash right
  cases found.symm.trans found'
  rfl

theorem put (free : a.entry h = none) (fresh : a.record hash = none)
    (data : Bytes) : Linked (a.put h hash data) := by
  have otherHash {query : Int64} {found : Bytes} (isEntry : a.entry query = some found) :
      found ≠ hash := by
    rintro rfl
    obtain ⟨data', isRecord⟩ := linked.record_of_entry query found isEntry
    rw [fresh] at isRecord
    cases isRecord
  constructor
  · intro query found isEntry
    simp only [Archive.put] at isEntry ⊢
    by_cases same : query = h
    · subst same
      rw [update_self] at isEntry
      cases isEntry
      exact ⟨data, update_self _ _ _⟩
    · rw [update_of_ne same] at isEntry
      rw [update_of_ne (otherHash isEntry)]
      exact linked.record_of_entry query found isEntry
  · intro found query data' isRecord
    simp only [Archive.put] at isRecord ⊢
    by_cases same : found = hash
    · subst same
      rw [update_self] at isRecord
      cases isRecord
      exact update_self _ _ _
    · rw [update_of_ne same] at isRecord
      have isEntry := linked.entry_of_record found query data' isRecord
      have otherHeight : query ≠ h := by
        rintro rfl
        rw [free] at isEntry
        cases isEntry
      rw [update_of_ne otherHeight]
      exact isEntry

theorem erase (gone : Int64 → Prop) : Linked (a.erase gone) := by
  constructor
  · intro query found isEntry
    obtain ⟨stays, earlier⟩ := entry_erase_eq_some isEntry
    obtain ⟨data', isRecord⟩ := linked.record_of_entry query found earlier
    refine ⟨data', ?_⟩
    rw [record_erase_of_not_gone, isRecord]
    intro other isGone otherEntry
    exact stays (linked.height_eq earlier otherEntry ▸ isGone)
  · intro found query data' isRecord
    by_cases isGone : ∃ other, gone other ∧ a.entry other = some found
    · obtain ⟨other, otherGone, isEntry⟩ := isGone
      rw [record_erase_of_gone otherGone isEntry] at isRecord
      cases isRecord
    · have stays : ∀ other, gone other → a.entry other ≠ some found :=
        fun other otherGone isEntry => isGone ⟨other, otherGone, isEntry⟩
      rw [record_erase_of_not_gone stays] at isRecord
      have isEntry := linked.entry_of_record found query data' isRecord
      rw [entry_erase_of_not_gone fun queryGone => stays query queryGone isEntry]
      exact isEntry

theorem prune (before : Int64) : Linked (a.prune before) := by
  by_cases possible : a.Prunable before ∧ a.base < before
  · obtain ⟨prunable, room⟩ := possible
    have left := linked.erase (a.Removes before)
    rw [prune_eq prunable room]
    exact ⟨left.1, left.2⟩
  · rwa [prune_of_not possible]

theorem step {op : StoreOp} (noClash : NoClash a op) (checked : Bool) :
    Linked (a.step checked op) := by
  cases op with
  | saveBlock h hash data =>
    rcases save_cases checked a h hash data with refused | ⟨free, -, saved⟩
    · rw [Archive.step, run, refused]
      exact linked
    · rw [Archive.step, run, saved]
      have fresh : a.record hash = none := by
        rcases noClash with stored | fresh
        · simp [hasBlock, free] at stored
        · exact fresh
      exact linked.put free fresh data
  | prune before => exact linked.prune before
  | setPruneConfig cfg => exact ⟨linked.1, linked.2⟩

end Linked

/-! ## Distinct hashes -/

end Archive

/-- Blocks at different heights are saved under different hashes. -/
def DistinctHashes (ops : List StoreOp) : Prop :=
  ∀ h k hash data data', .saveBlock h hash data ∈ ops → .saveBlock k hash data' ∈ ops → h = k

def StoreOp.savedHash : StoreOp → Option Bytes
  | saveBlock _ hash _ => some hash
  | _ => none

theorem distinctHashes_of_nodup {ops : List StoreOp}
    (nodup : (ops.filterMap StoreOp.savedHash).Nodup) : DistinctHashes ops := by
  have isSaved {h : Int64} {hash data : Bytes} {ops : List StoreOp}
      (member : .saveBlock h hash data ∈ ops) : hash ∈ ops.filterMap StoreOp.savedHash :=
    mem_filterMap.mpr ⟨_, member, rfl⟩
  induction ops with
  | nil =>
    intro h k hash data data' left
    cases left
  | cons op ops ih =>
    have later : (ops.filterMap StoreOp.savedHash).Nodup := by
      cases op with
      | saveBlock h hash data => exact (nodup_cons.mp nodup).2
      | prune | setPruneConfig => exact nodup
    have fresh {h : Int64} {hash data : Bytes} (isFirst : .saveBlock h hash data = op) :
        hash ∉ ops.filterMap StoreOp.savedHash := by
      subst isFirst
      exact (nodup_cons.mp nodup).1
    intro h k hash data data' left right
    rcases mem_cons.mp left with leftFirst | leftLater
    · rcases mem_cons.mp right with rightFirst | rightLater
      · cases leftFirst.trans rightFirst.symm
        rfl
      · exact absurd (isSaved rightLater) (fresh leftFirst)
    · rcases mem_cons.mp right with rightFirst | rightLater
      · exact absurd (isSaved leftLater) (fresh rightFirst)
      · exact ih later h k hash data data' leftLater rightLater

/-- A block is saved at the height that its hash is for. -/
def StoreOp.Assigned (assign : Bytes → Int64) : StoreOp → Prop
  | saveBlock h hash _ => assign hash = h
  | _ => True

open Classical in
theorem DistinctHashes.exists_assign {ops : List StoreOp} (distinct : DistinctHashes ops) :
    ∃ assign, ∀ op ∈ ops, op.Assigned assign := by
  let saved (hash : Bytes) (h : Int64) : Prop := ∃ data, .saveBlock h hash data ∈ ops
  refine ⟨fun hash => epsilon (saved hash), ?_⟩
  intro op member
  cases op with
  | saveBlock h hash data =>
    have isSaved : saved hash h := ⟨data, member⟩
    obtain ⟨data', chosen⟩ : saved hash (epsilon (saved hash)) :=
      epsilon_spec ⟨h, isSaved⟩
    exact distinct _ _ hash data' data chosen member
  | prune | setPruneConfig => trivial

namespace Archive

variable {a : Archive} {before : Int64} {assign : Bytes → Int64}

theorem record_erase_eq_some {gone : Int64 → Prop} {hash : Bytes} {block : Int64 × Bytes}
    (found : (a.erase gone).record hash = some block) : a.record hash = some block := by
  by_cases isGone : ∃ h, gone h ∧ a.entry h = some hash
  · obtain ⟨h, goneHere, isEntry⟩ := isGone
    rw [record_erase_of_gone goneHere isEntry] at found
    cases found
  · rwa [record_erase_of_not_gone fun h goneHere isEntry => isGone ⟨h, goneHere, isEntry⟩] at found

theorem record_prune_eq_some {hash : Bytes} {block : Int64 × Bytes}
    (found : (a.prune before).record hash = some block) : a.record hash = some block := by
  by_cases possible : a.Prunable before ∧ a.base < before
  · rw [record_prune possible.1 possible.2] at found
    exact record_erase_eq_some found
  · rwa [prune_of_not possible] at found

/-- What holds of an archive as long as the hashes of different heights differ. -/
structure Consistent (assign : Bytes → Int64) (a : Archive) : Prop where
  valid : Valid a
  linked : Linked a
  assigned : ∀ hash h data, a.record hash = some (h, data) → assign hash = h

theorem consistent_empty (assign : Bytes → Int64) : Consistent assign empty where
  valid := valid_empty
  linked := linked_empty
  assigned _ _ _ found := by cases found

namespace Consistent

variable (consistent : Consistent assign a)

include consistent

theorem noClash {op : StoreOp} (assigned : op.Assigned assign) : NoClash a op := by
  cases op with
  | saveBlock h hash data =>
    cases known : a.record hash with
    | none => exact .inr known
    | some block =>
      have isEntry := consistent.linked.entry_of_record hash block.1 block.2 known
      have sameHeight : block.1 = h :=
        (consistent.assigned hash block.1 block.2 known).symm.trans assigned
      rw [sameHeight] at isEntry
      exact .inl (Option.isSome_of_eq_some isEntry)
  | prune | setPruneConfig => trivial

theorem erase {gone : Int64 → Prop} (stays : ¬gone a.height) :
    Consistent assign (a.erase gone) where
  valid := consistent.valid.erase stays
  linked := consistent.linked.erase gone
  assigned hash h data found := consistent.assigned hash h data (record_erase_eq_some found)

theorem prune (before : Int64) : Consistent assign (a.prune before) where
  valid := consistent.valid.prune before
  linked := consistent.linked.prune before
  assigned hash h data found := consistent.assigned hash h data (record_prune_eq_some found)

theorem step {op : StoreOp} (positive : op.Positive)
    (assigned : op.Assigned assign) (checked : Bool) : Consistent assign (a.step checked op) where
  valid := consistent.valid.step positive checked
  linked := consistent.linked.step (consistent.noClash assigned) checked
  assigned := by
    cases op with
    | saveBlock h hash data =>
      rcases save_cases checked a h hash data with refused | ⟨-, -, saved⟩
      · rw [Archive.step, run, refused]
        exact consistent.assigned
      · rw [Archive.step, run, saved]
        intro query k data' found
        simp only [put] at found
        by_cases same : query = hash
        · subst same
          rw [update_self] at found
          cases found
          exact assigned
        · rw [update_of_ne same] at found
          exact consistent.assigned query k data' found
    | prune before => exact (consistent.prune before).assigned
    | setPruneConfig cfg => exact consistent.assigned

theorem after {ops : List StoreOp}
    (positive : ∀ op ∈ ops, op.Positive) (assigned : ∀ op ∈ ops, op.Assigned assign)
    (checked : Bool) : Consistent assign (Run.after (Archive.step checked) a ops) := by
  induction ops generalizing a with
  | nil => exact consistent
  | cons op ops ih =>
    have first := consistent.step (positive op mem_cons_self) (assigned op mem_cons_self) checked
    exact ih first (fun op member => positive op (mem_cons_of_mem _ member))
      fun op member => assigned op (mem_cons_of_mem _ member)

end Consistent

end Archive

end Blockberry
