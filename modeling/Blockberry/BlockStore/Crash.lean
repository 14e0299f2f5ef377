import Blockberry.BlockStore.LevelDB

/-!
# Crashes of the LevelDB block store

Every call is a sequence of atomic writes. A crash stops it after some of them, and the store is
opened again over what is on disk. `Prune` writes the base last, so a crash leaves an archive from
which some of the removed blocks are erased, with the base it had. It has all the invariants, and
pruning it again comes to the same end.
-/

namespace Blockberry

open BigEndian KeyValue List

namespace Archive

variable {a : Archive} {before : Int64}

theorem erase_erase (a : Archive) (first second : Int64 → Prop) :
    (a.erase first).erase second = a.erase fun h => first h ∨ second h := by
  refine eq_erase ?_ ?_ ?_ ?_ rfl rfl
  · intro h isGone
    by_cases goneBefore : first h
    · by_cases goneAgain : second h
      · exact entry_erase_of_gone goneAgain
      · rw [entry_erase_of_not_gone goneAgain, entry_erase_of_gone goneBefore]
    · exact entry_erase_of_gone (isGone.resolve_left goneBefore)
  · intro h stays
    rw [entry_erase_of_not_gone fun goneAgain => stays (.inr goneAgain),
      entry_erase_of_not_gone fun goneBefore => stays (.inl goneBefore)]
  · intro h hash isGone isEntry
    by_cases goneBefore : first h
    · rw [Option.eq_none_iff_forall_ne_some]
      intro block found
      have earlier := record_erase_eq_some found
      rw [record_erase_of_gone goneBefore isEntry] at earlier
      cases earlier
    · have stillEntry := (entry_erase_of_not_gone (a := a) goneBefore).trans isEntry
      exact record_erase_of_gone (isGone.resolve_left goneBefore) stillEntry
  · intro hash stays
    have stillThere : (a.erase first).record hash = a.record hash :=
      record_erase_of_not_gone fun h goneBefore => stays h (.inl goneBefore)
    rw [record_erase_of_not_gone, stillThere]
    intro h goneAgain isEntry
    exact stays h (.inr goneAgain) (entry_erase_eq_some isEntry).2

theorem prune_erase {gone : Int64 → Prop} (prunable : a.Prunable before)
    (room : a.base < before) (isRemoved : ∀ h, gone h → a.Removes before h) :
    (a.erase gone).prune before = a.prune before := by
  have keptInWindow {h : Int64} (isKept : a.kept h = true) :
      (a.erase gone).InWindow before h ↔ a.InWindow before h := by
    have stays : ¬gone h := fun isGone =>
      Bool.false_ne_true ((isRemoved h isGone).2.symm.trans isKept)
    rw [InWindow, InWindow, hasBlock_erase_iff, and_iff_left stays]
    rfl
  have first : (a.erase gone).FirstKept before (a.firstKept before) := by
    have first := a.firstKept_firstKept before
    constructor
    · intro h inWindow isKept
      exact first.le_kept h ((keptInWindow isKept).mp inWindow) isKept
    · rcases first.reached with isLimit | ⟨inWindow, isKept⟩
      · exact .inl isLimit
      · exact .inr ⟨(keptInWindow isKept).mpr inWindow, isKept⟩
  have removes : (fun h => gone h ∨ (a.erase gone).Removes before h) = a.Removes before := by
    funext h
    apply propext
    constructor
    · intro either
      rcases either with isGone | ⟨⟨lower, below, stored⟩, notKept⟩
      · exact isRemoved h isGone
      · exact ⟨⟨lower, below, (hasBlock_erase_iff.mp stored).1⟩, notKept⟩
    · intro removed
      by_cases isGone : gone h
      · exact .inl isGone
      · obtain ⟨⟨lower, below, stored⟩, notKept⟩ := removed
        exact .inr ⟨⟨lower, below, hasBlock_erase_iff.mpr ⟨stored, isGone⟩⟩, notKept⟩
  have prunableErased : (a.erase gone).Prunable before := prunable
  have roomErased : (a.erase gone).base < before := room
  rw [prune_eq prunableErased roomErased, prune_eq prunable room, erase_erase, removes,
    first.firstKept_eq]

theorem kept_prune (a : Archive) (before h : Int64) : (a.prune before).kept h = a.kept h := by
  rw [kept, kept, height_prune, pruneCfg_prune]

theorem not_removes_prune (prunable : a.Prunable before) (room : a.base < before) (h : Int64) :
    ¬(a.prune before).Removes before h := by
  intro removed
  have first := a.firstKept_firstKept before
  obtain ⟨⟨lower, below, stored⟩, notKept⟩ := removed
  rw [base_prune prunable room first] at lower
  rw [kept_prune] at notKept
  obtain ⟨earlier, stays⟩ := (hasBlock_prune_iff prunable room).mp stored
  exact stays ⟨⟨Int64.le_trans (first.base_le room) lower, below, earlier⟩, notKept⟩

theorem firstKept_prune (prunable : a.Prunable before) (room : a.base < before) :
    (a.prune before).FirstKept before (a.firstKept before) := by
  have first := a.firstKept_firstKept before
  have base := base_prune prunable room first
  constructor
  · intro h inWindow _
    rw [← base]
    exact inWindow.1
  · rcases first.reached with isLimit | ⟨inWindow, isKept⟩
    · exact .inl isLimit
    · refine .inr ⟨⟨?_, inWindow.2.1, ?_⟩, (a.kept_prune before _).trans isKept⟩
      · rw [base]
        exact Int64.le_refl _
      · exact (hasBlock_prune_iff prunable room).mpr ⟨inWindow.2.2,
          fun removed => Bool.false_ne_true (removed.2.symm.trans isKept)⟩

theorem erase_of_not_gone {gone : Int64 → Prop} (stay : ∀ h, ¬gone h) : a.erase gone = a := by
  ext1
  · funext h
    exact entry_erase_of_not_gone (stay h)
  · funext hash
    exact record_erase_of_not_gone fun h isGone => absurd isGone (stay h)
  · rfl
  · rfl
  · rfl

theorem prune_prune (a : Archive) (before : Int64) :
    (a.prune before).prune before = a.prune before := by
  by_cases possible : a.Prunable before ∧ a.base < before
  · obtain ⟨prunable, room⟩ := possible
    by_cases roomAgain : (a.prune before).base < before
    · have prunableAgain : (a.prune before).Prunable before := by
        rw [Prunable, height_prune]
        exact prunable
      rw [prune_eq prunableAgain roomAgain, erase_of_not_gone (not_removes_prune prunable room),
        (firstKept_prune prunable room).firstKept_eq,
        ← base_prune prunable room (a.firstKept_firstKept before)]
    · exact prune_of_not fun possible => roomAgain possible.2
  · rw [prune_of_not possible, prune_of_not possible]

end Archive

namespace DiskBlockStore

variable {s : DiskBlockStore} {h : Int64} {hash data : Bytes}

/-- The metadata in memory is that on disk. -/
structure Synced (s : DiskBlockStore) : Prop where
  height : (s.db[keyMetaHeight]?.map decodeWord).getD 0 = s.height
  base : (s.db[keyMetaBase]?.map decodeWord).getD 0 = s.base

theorem Synced.loadMetadata_eq (synced : Synced s) :
    loadMetadata s.db = { s with pruneCfg := none, pruning := false } := by
  rw [loadMetadata, synced.height, synced.base]

theorem synced_new : Synced new := ⟨rfl, rfl⟩

theorem Synced.saved (synced : Synced s) (h : Int64) (hash data : Bytes) :
    Synced (s.saved h hash data) := by
  constructor
  · rw [getElem?_saved, if_neg fun both => keyMetaBase_ne_keyMetaHeight both.2,
      if_neg (keyMetaHeight_ne_makeBlockKey hash).symm,
      if_neg (ne_makeHeightKey not_prefixHeight_isPrefix_keyMetaHeight h).symm]
    by_cases higher : s.height < h
    · simp [higher, DiskBlockStore.saved]
    · simpa [higher, DiskBlockStore.saved] using synced.height
  · rw [getElem?_saved, if_neg (fun both : s.height < h ∧ _ => keyMetaHeight_ne_keyMetaBase both.2),
      if_neg (keyMetaBase_ne_makeBlockKey hash).symm,
      if_neg (ne_makeHeightKey not_prefixHeight_isPrefix_keyMetaBase h).symm]
    by_cases lower : s.base = 0 ∨ h < s.base
    · simp [lower, DiskBlockStore.saved]
    · simpa [lower, DiskBlockStore.saved] using synced.base

theorem Synced.erased (synced : Synced s) {part : List (Bytes × Bytes)}
    (indexed : s.Indexed part) : Synced (s.erased part) := by
  constructor
  · rw [getElem?_erased_of_ne indexed not_prefixHeight_isPrefix_keyMetaHeight
      keyMetaHeight_ne_makeBlockKey]
    exact synced.height
  · rw [getElem?_erased_of_ne indexed not_prefixHeight_isPrefix_keyMetaBase
      keyMetaBase_ne_makeBlockKey]
    exact synced.base

theorem Synced.withBase (synced : Synced s) (newBase : Int64) : Synced (s.withBase newBase) := by
  constructor
  · rw [getElem?_withBase, if_neg fun both => keyMetaBase_ne_keyMetaHeight both.2]
    exact synced.height
  · rw [getElem?_withBase]
    by_cases higher : s.base < newBase
    · simp [higher, DiskBlockStore.withBase]
    · simpa [higher, DiskBlockStore.withBase] using synced.base

end DiskBlockStore

/-! ## Crashes -/

/-- A call, or a call that a crash stops after some of its writes. -/
inductive DiskEvent where
  | call (op : StoreOp)
  | crash (op : StoreOp) (writes : Nat)
  deriving DecidableEq, Repr

def DiskEvent.op : DiskEvent → StoreOp
  | call op => op
  | crash op _ => op

namespace LevelDBBlockStore

open DiskBlockStore

variable {s : DiskBlockStore} {before : Int64} {assign : Bytes → Int64}

def call (s : DiskBlockStore) (op : StoreOp) : DiskBlockStore :=
  @StoreOp.step LevelDBBlockStore _ s op

def DeletesBlocks (s : DiskBlockStore) (before : Int64) : Prop :=
  s.archive.Prunable before ∧ s.pruning = false ∧ s.archive.base < before

instance (s : DiskBlockStore) (before : Int64) : Decidable (DeletesBlocks s before) :=
  inferInstanceAs (Decidable (_ ∧ _ ∧ _))

/-- The writes of a call, in their order. -/
def writesOf (s : DiskBlockStore) : StoreOp → List Batch
  | .saveBlock height hash data =>
    if s.db[makeHeightKey height]?.isSome then [] else [s.saveBatch height hash data]
  | .prune before => if DeletesBlocks s before then pruneWrites s before else []
  | .setPruneConfig _ => []

/-- The store opened again after a crash. -/
def crashed (s : DiskBlockStore) (op : StoreOp) (writes : Nat) : DiskBlockStore :=
  DiskBlockStore.loadMetadata (((writesOf s op).take writes).foldl write s.db)

def diskStep (s : DiskBlockStore) : DiskEvent → DiskBlockStore
  | .call op => call s op
  | .crash op writes => crashed s op writes

theorem call_prune_of_deletesBlocks (possible : DeletesBlocks s before) :
    call s (.prune before) = s.pruned before := by
  obtain ⟨prunable, isIdle, room⟩ := possible
  obtain ⟨bytesFreed, outcome⟩ := deletes_deleteBlocks s before
  have bound : ¬s.height < before := Int64.not_lt.mpr prunable.2
  have idle : ¬s.pruning = true := Bool.eq_false_iff.mp isIdle
  have notYet : ¬before ≤ s.base := Int64.not_le.mpr room
  change (pruneWith deleteBlocks s before).1 = _
  rw [pruneWith, if_neg (Int64.not_le.mpr prunable.1), if_neg bound, if_neg idle,
    if_neg notYet, outcome]

theorem call_prune_of_not_deletesBlocks (impossible : ¬DeletesBlocks s before) :
    call s (.prune before) = s := by
  change (pruneWith deleteBlocks s before).1 = _
  unfold pruneWith
  split
  next => rfl
  next pos =>
    split
    next => rfl
    next bound =>
      split
      next => rfl
      next idle =>
        split
        next => rfl
        next notYet =>
          exact absurd ⟨⟨Int64.not_le.mp pos, Int64.not_lt.mp bound⟩,
            Bool.eq_false_of_not_eq_true idle, Int64.not_le.mp notYet⟩ impossible

theorem wellFormed_call (wellFormed : WellFormed s) {op : StoreOp} (positive : op.Positive) :
    WellFormed (call s op) :=
  (@ArchiveStore.run_spec LevelDBBlockStore _ s wellFormed op positive).1

theorem archive_call (wellFormed : WellFormed s) {op : StoreOp} (positive : op.Positive) :
    (call s op).archive = s.archive.step false op :=
  @ArchiveStore.archive_step LevelDBBlockStore _ s wellFormed op positive

theorem archive_call_prune (wellFormed : WellFormed s) (before : Int64) :
    (call s (.prune before)).archive = s.archive.prune before := archive_call wellFormed trivial

theorem db_call (s : DiskBlockStore) (op : StoreOp) :
    (call s op).db = (writesOf s op).foldl write s.db := by
  cases op with
  | saveBlock height hash data =>
    change (s.saveBlock height hash data).1.db = _
    by_cases stored : s.db[makeHeightKey height]?.isSome = true
    · simp only [DiskBlockStore.saveBlock, writesOf, if_pos stored]
      rfl
    · simp only [DiskBlockStore.saveBlock, writesOf, if_neg stored]
      rfl
  | prune before =>
    by_cases possible : DeletesBlocks s before
    · rw [call_prune_of_deletesBlocks possible, writesOf, if_pos possible, foldl_pruneWrites]
    · rw [call_prune_of_not_deletesBlocks possible, writesOf, if_neg possible]
      rfl
  | setPruneConfig cfg => rfl

/-- A part of the writes of `Prune` erases some of the removed blocks, or is everything. -/
theorem take_pruneWrites (s : DiskBlockStore) (before : Int64) (writes : Nat) :
    (pruneWrites s before).take writes = pruneWrites s before ∨
      ∃ part, (∀ entry ∈ part, entry ∈ s.removed before) ∧
        ((pruneWrites s before).take writes).foldl write s.db = (s.erased part).db := by
  obtain ⟨groups, entries, allWrites⟩ := pruneWrites_eq s before
  by_cases early : writes ≤ groups.length
  · refine .inr ⟨(groups.take writes).flatten, ?_, ?_⟩
    · intro entry member
      rw [← entries]
      obtain ⟨group, inPart, inGroup⟩ := mem_flatten.mp member
      exact mem_flatten.mpr ⟨group, mem_of_mem_take inPart, inGroup⟩
    · have onlyGroups : writes ≤ (groups.map deletesOf).length := by rwa [length_map]
      rw [allWrites, take_append_of_le_length onlyGroups, ← map_take, foldl_write,
        flatten_map_deletesOf]
      rfl
  · refine .inl (take_of_length_le ?_)
    have oneMore : (if s.base < s.newBase before then
        [[Write.put keyMetaBase (encodeWord (s.newBase before))]] else []).length ≤ 1 := by
      split
      next => exact Nat.le_refl 1
      next => exact Nat.zero_le 1
    rw [allWrites, length_append, length_map]
    omega

/-- Where a crash can leave the database: as before the call, as after it, or with some of
the blocks erased that a `Prune` removes. -/
theorem crashed_cases (s : DiskBlockStore) (op : StoreOp) (writes : Nat) :
    crashed s op writes = DiskBlockStore.loadMetadata s.db ∨
      crashed s op writes = DiskBlockStore.loadMetadata ((call s op).db) ∨
      ∃ before part, op = .prune before ∧ s.archive.Prunable before ∧
        s.archive.base < before ∧ (∀ entry ∈ part, entry ∈ s.removed before) ∧
        crashed s op writes = DiskBlockStore.loadMetadata (s.erased part).db := by
  have whole (all : (writesOf s op).take writes = writesOf s op) :
      crashed s op writes = DiskBlockStore.loadMetadata ((call s op).db) := by
    rw [crashed, all, db_call]
  cases op with
  | saveBlock height hash data =>
    cases writes with
    | zero => exact .inl rfl
    | succ writes =>
      refine .inr (.inl (whole ?_))
      apply take_of_length_le
      simp only [writesOf]
      split
      next => exact Nat.zero_le _
      next => exact Nat.le_add_left 1 writes
  | prune before =>
    by_cases possible : DeletesBlocks s before
    · have isPrune : writesOf s (.prune before) = pruneWrites s before := if_pos possible
      rcases take_pruneWrites s before writes with all | ⟨part, isRemoved, reached⟩
      · exact .inr (.inl (whole (by rw [isPrune, all])))
      · refine .inr (.inr ⟨before, part, rfl, possible.1, possible.2.2, isRemoved, ?_⟩)
        rw [crashed, isPrune]
        exact congrArg DiskBlockStore.loadMetadata reached
    · have nothing : writesOf s (.prune before) = [] := if_neg possible
      exact .inr (.inl (whole (by rw [nothing, take_nil])))
  | setPruneConfig cfg => exact .inr (.inl (whole take_nil))

/-! ## Histories with crashes -/

/-- What every state of a history has. -/
structure Recoverable (assign : Bytes → Int64) (s : DiskBlockStore) : Prop where
  wellFormed : WellFormed s
  consistent : s.archive.Consistent assign
  synced : Synced s

theorem recoverable_new (assign : Bytes → Int64) : Recoverable assign DiskBlockStore.new where
  wellFormed := DiskBlockStore.wellFormed_new
  consistent := DiskBlockStore.archive_new.symm ▸ Archive.consistent_empty assign
  synced := synced_new

namespace Recoverable

variable (recoverable : Recoverable assign s)

include recoverable

theorem reopened : Recoverable assign (DiskBlockStore.loadMetadata s.db) := by
  obtain ⟨⟨heightKey, base_nonneg, -⟩, ⟨valid, linked, assigned⟩, synced⟩ := recoverable
  have same : DiskBlockStore.loadMetadata s.db = _ := synced.loadMetadata_eq
  rw [same]
  exact ⟨⟨heightKey, base_nonneg, rfl⟩,
    ⟨⟨valid.1, valid.2, valid.3, valid.4, valid.5, valid.6⟩, ⟨linked.1, linked.2⟩, assigned⟩,
    ⟨synced.1, synced.2⟩⟩

theorem erased {part : List (Bytes × Bytes)}
    (prunable : s.archive.Prunable before) (isRemoved : ∀ entry ∈ part, entry ∈ s.removed before) :
    Recoverable assign (s.erased part) := by
  have indexed : s.Indexed part := fun entry member =>
    indexed_removed recoverable.wellFormed prunable entry (isRemoved entry member)
  refine ⟨recoverable.wellFormed.erased part, ?_, recoverable.synced.erased indexed⟩
  have heightStays : ¬s.archive.height ∈ heightsOf part := by
    intro member
    obtain ⟨entry, inPart, isHeight⟩ := mem_map.mp member
    have inRemoved : s.archive.height ∈ heightsOf (s.removed before) :=
      mem_map.mpr ⟨entry, isRemoved entry inPart, isHeight⟩
    exact Archive.Valid.height_stays prunable
      ((mem_heightsOf_removed recoverable.wellFormed prunable).mp inRemoved)
  have content : archive (DiskBlockStore.erased s part) =
      s.archive.erase (· ∈ heightsOf part) := archive_erased indexed
  rw [content]
  exact recoverable.consistent.erase heightStays

theorem call (op : StoreOp) (positive : op.Positive)
    (assigned : op.Assigned assign) : Recoverable assign (call s op) := by
  obtain ⟨wellFormed, consistent, synced⟩ := recoverable
  refine ⟨wellFormed_call wellFormed positive, ?_, ?_⟩
  · rw [archive_call wellFormed positive]
    exact consistent.step positive assigned false
  · cases op with
    | saveBlock h hash data =>
      change Synced (s.saveBlock h hash data).1
      unfold DiskBlockStore.saveBlock
      split
      next => exact synced
      next => exact synced.saved h hash data
    | prune before =>
      by_cases possible : DeletesBlocks s before
      · rw [call_prune_of_deletesBlocks possible, pruned_eq]
        exact (synced.erased (indexed_removed wellFormed possible.1)).withBase _
      · rwa [call_prune_of_not_deletesBlocks possible]
    | setPruneConfig cfg => exact ⟨synced.1, synced.2⟩

theorem crashed (op : StoreOp) (positive : op.Positive)
    (assigned : op.Assigned assign) (writes : Nat) : Recoverable assign (crashed s op writes) := by
  rcases crashed_cases s op writes with
    before | after | ⟨before, part, -, prunable, -, isRemoved, partly⟩
  · rw [before]
    exact recoverable.reopened
  · rw [after]
    exact (recoverable.call op positive assigned).reopened
  · rw [partly]
    exact (recoverable.erased prunable isRemoved).reopened

theorem after {events : List DiskEvent} (positive : ∀ event ∈ events, event.op.Positive)
    (assigned : ∀ event ∈ events, event.op.Assigned assign) :
    Recoverable assign (Run.after diskStep s events) := by
  induction events generalizing s with
  | nil => exact recoverable
  | cons event events ih =>
    have isPositive := positive event mem_cons_self
    have isAssigned := assigned event mem_cons_self
    have next : Recoverable assign (diskStep s event) := by
      cases event with
      | call op => exact recoverable.call op isPositive isAssigned
      | crash op writes => exact recoverable.crashed op isPositive isAssigned writes
    exact ih next (fun event member => positive event (mem_cons_of_mem _ member))
      fun event member => assigned event (mem_cons_of_mem _ member)

end Recoverable

structure Sound (s : DiskBlockStore) : Prop where
  le_height : ∀ h, hasBlock s h = true → h ≤ s.height
  height_stored : hasBlock s s.height = true ∨
    s.height = 0 ∧ ∀ h, hasBlock s h = false
  base_le : ∀ h, hasBlock s h = true → s.base ≤ h
  record_of_height : ∀ h hash, s.db[makeHeightKey h]? = some hash →
    ∃ value, s.db[makeBlockKey hash]? = some value ∧ (parseBlockValue value).1 = h
  height_of_record : ∀ hash value, s.db[makeBlockKey hash]? = some value →
    s.db[makeHeightKey (parseBlockValue value).1]? = some hash

structure SameHeights (left right : DiskBlockStore) : Prop where
  hasBlock : ∀ h, hasBlock left h = hasBlock right h
  height : left.height = right.height
  base : left.base = right.base

theorem Recoverable.sound (recoverable : Recoverable assign s) : Sound s := by
  obtain ⟨-, ⟨valid, linked, -⟩, -⟩ := recoverable
  constructor
  · exact valid.le_height
  · rcases valid.height_stored with zero | stored
    · refine .inr ⟨zero, ?_⟩
      intro h
      apply Bool.eq_false_of_not_eq_true
      intro stored
      have below := valid.le_height h stored
      rw [zero] at below
      exact Int64.lt_irrefl (Int64.lt_of_lt_of_le (valid.pos h stored) below)
    · exact .inl stored
  · exact valid.base_le
  · intro h hash isEntry
    obtain ⟨data, isRecord⟩ := linked.record_of_entry h hash isEntry
    obtain ⟨value, found, parsed⟩ := Option.map_eq_some_iff.mp isRecord
    exact ⟨value, found, congrArg Prod.fst parsed⟩
  · intro hash value found
    refine linked.entry_of_record hash (parseBlockValue value).1 (parseBlockValue value).2 ?_
    exact Option.map_eq_some_iff.mpr ⟨value, found, rfl⟩

/-- Pruning again after a crash, with the configuration set again. -/
def pruneAgain (s : DiskBlockStore) (before : Int64) (writes : Nat) : DiskBlockStore :=
  call ((crashed s (.prune before) writes).setPruneConfig s.pruneCfg) (.prune before)

theorem Recoverable.archive_crashed_prune (recoverable : Recoverable assign s) (before : Int64)
    (writes : Nat) :
    ((LevelDBBlockStore.crashed s (.prune before) writes).setPruneConfig s.pruneCfg).archive.prune
      before = s.archive.prune before := by
  have reset {t : DiskBlockStore} (synced : Synced t) (sameCfg : t.archive.pruneCfg = s.pruneCfg) :
      ((DiskBlockStore.loadMetadata t.db).setPruneConfig s.pruneCfg).archive = t.archive := by
    rw [synced.loadMetadata_eq, ← sameCfg]
    rfl
  rcases crashed_cases s (.prune before) writes with
    asBefore | asAfter | ⟨limit, part, isPrune, prunable, room, isRemoved, partly⟩
  · rw [asBefore, reset recoverable.synced rfl]
  · have synced := (recoverable.call (.prune before) trivial trivial).synced
    have content := archive_call_prune recoverable.wellFormed before
    have sameCfg : (LevelDBBlockStore.call s (.prune before)).archive.pruneCfg = s.pruneCfg := by
      rw [content, Archive.pruneCfg_prune]
      rfl
    rw [asAfter, reset synced sameCfg, content, Archive.prune_prune]
  · cases isPrune
    have indexed : s.Indexed part := fun entry member =>
      indexed_removed recoverable.wellFormed prunable entry (isRemoved entry member)
    rw [partly, reset (recoverable.synced.erased indexed) rfl, archive_erased indexed]
    apply Archive.prune_erase prunable room
    intro h member
    obtain ⟨entry, inPart, isHeight⟩ := mem_map.mp member
    exact (mem_heightsOf_removed recoverable.wellFormed prunable).mp
      (mem_map.mpr ⟨entry, isRemoved entry inPart, isHeight⟩)

theorem Recoverable.sameHeights (recoverable : Recoverable assign s) (before : Int64)
    (writes : Nat) :
    SameHeights (pruneAgain s before writes) (LevelDBBlockStore.call s (.prune before)) := by
  have left := recoverable.crashed (.prune before) trivial trivial writes
  have reset : WellFormed ((LevelDBBlockStore.crashed s (.prune before) writes).setPruneConfig
      s.pruneCfg) :=
    ⟨left.wellFormed.heightKey, left.wellFormed.base_nonneg, left.wellFormed.idle⟩
  have same : (pruneAgain s before writes).archive =
      (LevelDBBlockStore.call s (.prune before)).archive := by
    rw [pruneAgain, archive_call_prune reset, archive_call_prune recoverable.wellFormed,
      recoverable.archive_crashed_prune]
  exact ⟨fun h => congrArg (fun a => a.hasBlock h) same, congrArg Archive.height same,
    congrArg Archive.base same⟩

/-- After every history of calls and crashes with positive heights and distinct hashes the store is
sound, and an interrupted `Prune` can be run again to the same end. -/
theorem crash_recovery (events : List DiskEvent) (positive : ∀ event ∈ events, event.op.Positive)
    (distinct : DistinctHashes (events.map DiskEvent.op)) :
    Sound (Run.after diskStep DiskBlockStore.new events) ∧
      ∀ before writes,
        SameHeights (pruneAgain (Run.after diskStep DiskBlockStore.new events) before writes)
          (call (Run.after diskStep DiskBlockStore.new events) (.prune before)) := by
  obtain ⟨assign, assigned⟩ := distinct.exists_assign
  have reached := (recoverable_new assign).after positive fun event member =>
    assigned event.op (mem_map.mpr ⟨event, member, rfl⟩)
  exact ⟨reached.sound, fun before writes => reached.sameHeights before writes⟩

/-- A crash between the deletions of a `Prune` and the update of the base. -/
theorem crash_recovery_before_base :
    Sound (Run.after diskStep DiskBlockStore.new
        [.call (.saveBlock 1 [7] [1]), .call (.saveBlock 2 [8] [2]), .crash (.prune 2) 1]) ∧
      ∀ before writes,
        SameHeights
          (pruneAgain (Run.after diskStep DiskBlockStore.new
            [.call (.saveBlock 1 [7] [1]), .call (.saveBlock 2 [8] [2]), .crash (.prune 2) 1])
            before writes)
          (call (Run.after diskStep DiskBlockStore.new
            [.call (.saveBlock 1 [7] [1]), .call (.saveBlock 2 [8] [2]), .crash (.prune 2) 1])
            (.prune before)) :=
  crash_recovery _ (by decide) (distinctHashes_of_nodup (by decide))

end LevelDBBlockStore

end Blockberry
