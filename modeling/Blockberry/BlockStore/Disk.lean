import Blockberry.BlockStore.Keys
import Blockberry.BlockStore.Refinement
import Blockberry.Types.Database

/-!
# Block stores on disk

The LevelDB and the Badger store keep everything in one ordered key space, the height index under
`H:` and the block records under `B:`, with the metadata heights both in memory and on disk. They
differ in how `Prune` goes through the index; the outcome of both is `pruned`, which is that of
pruning the archive in the database.
-/

namespace Blockberry

open BigEndian KeyValue PruneConfig Archive Option

structure DiskBlockStore where
  db : Database
  height : Int64
  base : Int64
  pruneCfg : Option PruneConfig
  pruning : Bool

namespace DiskBlockStore

variable {s : DiskBlockStore} {h before : Int64} {hash data : Bytes}

def loadMetadata (db : Database) : DiskBlockStore where
  db
  height := (db[keyMetaHeight]?.map decodeWord).getD 0
  base := (db[keyMetaBase]?.map decodeWord).getD 0
  pruneCfg := none
  pruning := false

def new : DiskBlockStore := loadMetadata ∅

def saveBatch (s : DiskBlockStore) (height : Int64) (hash data : Bytes) : Batch :=
  ([.put (makeHeightKey height) hash] : Batch) ++
    ([.put (makeBlockKey hash) (makeBlockValue height data)] : Batch) ++
    (if s.height < height then [.put keyMetaHeight (encodeWord height)] else [] : Batch) ++
    (if s.base = 0 ∨ height < s.base then [.put keyMetaBase (encodeWord height)] else [] : Batch)

def saved (s : DiskBlockStore) (height : Int64) (hash data : Bytes) : DiskBlockStore :=
  { s with
    db := write s.db (s.saveBatch height hash data)
    height := if s.height < height then height else s.height
    base := if s.base = 0 ∨ height < s.base then height else s.base }

def saveBlock (s : DiskBlockStore) (height : Int64) (hash data : Bytes) :
    DiskBlockStore × Option StoreError :=
  if s.db[makeHeightKey height]?.isSome then (s, some .blockExists)
  else (s.saved height hash data, none)

def loadBlock (s : DiskBlockStore) (height : Int64) : Option (Bytes × Bytes) :=
  s.db[makeHeightKey height]?.bind fun hash =>
    s.db[makeBlockKey hash]?.map fun blockValue => (hash, (parseBlockValue blockValue).2)

def loadBlockByHash (s : DiskBlockStore) (hash : Bytes) : Option (Int64 × Bytes) :=
  s.db[makeBlockKey hash]?.map parseBlockValue

def hasBlock (s : DiskBlockStore) (height : Int64) : Bool := s.db[makeHeightKey height]?.isSome

def setPruneConfig (s : DiskBlockStore) (cfg : Option PruneConfig) : DiskBlockStore :=
  { s with pruneCfg := cfg }

def kept (s : DiskBlockStore) (h : Int64) : Bool := keeps s.pruneCfg h s.height

def heightsOf (entries : List (Bytes × Bytes)) : List Int64 :=
  entries.map fun entry => heightOfKey entry.1

/-- The deletions for entries of the height index. -/
def deletesOf (entries : List (Bytes × Bytes)) : Batch :=
  (entries.flatMap fun entry => [entry.1, makeBlockKey entry.2]).map .delete

def baseBatch (s : DiskBlockStore) (newBase : Int64) : Batch :=
  if s.base < newBase then [.put keyMetaBase (encodeWord newBase)] else []

/-! ## The archive in a database -/

def archive (s : DiskBlockStore) : Archive where
  entry h := s.db[makeHeightKey h]?
  record hash := s.db[makeBlockKey hash]?.map parseBlockValue
  height := s.height
  base := s.base
  pruneCfg := s.pruneCfg

/-- The index has positive heights only, and no call is under way. -/
structure WellFormed (s : DiskBlockStore) : Prop where
  heightKey : ∀ key, prefixHeight <+: key → s.db[key]?.isSome → ∃ h, 0 < h ∧ key = makeHeightKey h
  base_nonneg : 0 ≤ s.base
  idle : s.pruning = false

theorem wellFormed_new : WellFormed new where
  heightKey key _ found := by
    change ((∅ : Database)[key]?).isSome = true at found
    simp at found
  base_nonneg := Int64.le_refl _
  idle := rfl

theorem archive_new : new.archive = empty := by
  ext1
  · funext h
    exact Std.TreeMap.getElem?_emptyc
  · funext hash
    change ((∅ : Database)[makeBlockKey hash]?).map parseBlockValue = none
    rw [Std.TreeMap.getElem?_emptyc]
    rfl
  · rfl
  · rfl
  · rfl

theorem loadBlock_archive (s : DiskBlockStore) (h : Int64) :
    s.loadBlock h = s.archive.loadBlock h := by
  simp only [loadBlock, Archive.loadBlock, archive, map_map]
  rfl

theorem getElem?_saved (s : DiskBlockStore) (h : Int64) (hash data query : Bytes) :
    (s.saved h hash data).db[query]? =
      if (s.base = 0 ∨ h < s.base) ∧ keyMetaBase = query then some (encodeWord h)
      else if s.height < h ∧ keyMetaHeight = query then some (encodeWord h)
      else if makeBlockKey hash = query then some (makeBlockValue h data)
      else if makeHeightKey h = query then some hash
      else s.db[query]? := by
  rw [saved, saveBatch, write_append, write_append, write_append, getElem?_write_putIf,
    getElem?_write_putIf, getElem?_write_put, getElem?_write_put]

theorem getElem?_saved_of_isPrefix {query : Bytes} (isIndex : prefixHeight <+: query) :
    (s.saved h hash data).db[query]? =
      if makeHeightKey h = query then some hash else s.db[query]? := by
  have notBase : keyMetaBase ≠ query := fun same =>
    not_prefixHeight_isPrefix_keyMetaBase (same ▸ isIndex)
  have notHeight : keyMetaHeight ≠ query := fun same =>
    not_prefixHeight_isPrefix_keyMetaHeight (same ▸ isIndex)
  have notBlock : makeBlockKey hash ≠ query := fun same =>
    not_prefixHeight_isPrefix_makeBlockKey hash (same ▸ isIndex)
  rw [getElem?_saved, if_neg (fun both => notBase both.2), if_neg (fun both => notHeight both.2),
    if_neg notBlock]

theorem archive_saved (s : DiskBlockStore) (h : Int64) (hash data : Bytes) :
    (s.saved h hash data).archive = s.archive.put h hash data := by
  ext1
  · funext query
    change (s.saved h hash data).db[makeHeightKey query]? = _
    rw [getElem?_saved_of_isPrefix (prefixHeight_isPrefix_makeHeightKey query)]
    by_cases same : query = h
    · subst same
      simp [put]
    · simp [put, archive, same, Ne.symm same]
  · funext query
    change (s.saved h hash data).db[makeBlockKey query]?.map parseBlockValue = _
    rw [getElem?_saved, if_neg fun both => keyMetaBase_ne_makeBlockKey query both.2,
      if_neg fun both => keyMetaHeight_ne_makeBlockKey query both.2]
    by_cases same : query = hash
    · subst same
      simp [put]
    · simp [put, archive, same, Ne.symm same]
  · rfl
  · rfl
  · rfl

theorem WellFormed.saved (wellFormed : WellFormed s) (pos : 0 < h) (hash data : Bytes) :
    WellFormed (s.saved h hash data) where
  heightKey key isIndex found := by
    rw [getElem?_saved_of_isPrefix isIndex] at found
    split at found
    next same => exact ⟨h, pos, same.symm⟩
    next => exact wellFormed.heightKey key isIndex found
  base_nonneg := by
    change 0 ≤ if s.base = 0 ∨ h < s.base then h else s.base
    split
    next => exact Int64.le_of_lt pos
    next => exact wellFormed.base_nonneg
  idle := wellFormed.idle

theorem saveBlock_spec (wellFormed : WellFormed s) (pos : 0 < h) (hash data : Bytes) :
    WellFormed (s.saveBlock h hash data).1 ∧
      ((s.saveBlock h hash data).1.archive, (s.saveBlock h hash data).2.isNone) =
        s.archive.save false h hash data := by
  unfold saveBlock save
  change _ ∧ _ = if s.db[makeHeightKey h]?.isSome then _ else _
  split
  next => exact ⟨wellFormed, rfl⟩
  next =>
    refine ⟨wellFormed.saved pos hash data, ?_⟩
    rw [archive_saved]
    rfl

/-- The entries of the index that `Prune` goes through. -/
def window (s : DiskBlockStore) (before : Int64) : List (Bytes × Bytes) :=
  range s.db (makeHeightKey s.base) (makeHeightKey before)

def removed (s : DiskBlockStore) (before : Int64) : List (Bytes × Bytes) :=
  (s.window before).filter fun entry => !s.kept (heightOfKey entry.1)

def newBase (s : DiskBlockStore) (before : Int64) : Int64 :=
  lowestKept s.kept before (heightsOf (s.window before))

def pruned (s : DiskBlockStore) (before : Int64) : DiskBlockStore :=
  { s with
    db := write (write s.db (deletesOf (s.removed before))) (s.baseBatch (s.newBase before))
    base := if s.base < s.newBase before then s.newBase before else s.base }

/-- The heights of a list that holds the index entries of some stored heights. -/
theorem mem_heightsOf {entries : List (Bytes × Bytes)} {listed : Int64 → Prop}
    (lists : ∀ key hash, (key, hash) ∈ entries ↔
      ∃ h, key = makeHeightKey h ∧ listed h ∧ s.archive.entry h = some hash)
    (stored : ∀ h, listed h → s.archive.hasBlock h = true) :
    h ∈ heightsOf entries ↔ listed h := by
  rw [heightsOf, List.mem_map]
  constructor
  · intro visited
    obtain ⟨⟨key, hash⟩, member, rfl⟩ := visited
    obtain ⟨h, rfl, isListed, -⟩ := (lists key hash).mp member
    rwa [heightOfKey_makeHeightKey]
  · intro isListed
    obtain ⟨hash, isEntry⟩ := isSome_iff_exists.mp (stored h isListed)
    exact ⟨(makeHeightKey h, hash), (lists _ _).mpr ⟨h, rfl, isListed, isEntry⟩,
      heightOfKey_makeHeightKey h⟩

section Window

variable (wellFormed : WellFormed s) (prunable : s.archive.Prunable before)

include wellFormed prunable

theorem mem_window {key hash : Bytes} : (key, hash) ∈ s.window before ↔
      ∃ h, key = makeHeightKey h ∧ s.archive.InWindow before h ∧ s.archive.entry h = some hash := by
  have order (h : Int64) (pos : 0 < h) :
      ((compare (makeHeightKey s.base) (makeHeightKey h)).isLE = true ↔ s.base ≤ h) ∧
        (compare (makeHeightKey h) (makeHeightKey before) = .lt ↔ h < before) := by
    rw [compare_makeHeightKey wellFormed.base_nonneg (Int64.le_of_lt pos),
      compare_makeHeightKey (Int64.le_of_lt pos) (Int64.le_of_lt prunable.1),
      Std.isLE_compare, compare_lt_iff_lt, Int64.le_iff_toInt_le, Int64.lt_iff_toInt_lt]
    exact ⟨Iff.rfl, Iff.rfl⟩
  rw [window, mem_range]
  constructor
  · intro inRange
    obtain ⟨above, below, found⟩ := inRange
    obtain ⟨h, pos, rfl⟩ := wellFormed.heightKey key
      (prefixHeight_isPrefix_of_between above below) (isSome_of_eq_some found)
    have stored : s.archive.hasBlock h = true := isSome_of_eq_some found
    exact ⟨h, rfl, ⟨(order h pos).1.mp above, (order h pos).2.mp below, stored⟩, found⟩
  · intro inIndex
    obtain ⟨h, rfl, ⟨above, below, stored⟩, found⟩ := inIndex
    obtain ⟨other, pos, same⟩ :=
      wellFormed.heightKey _ (prefixHeight_isPrefix_makeHeightKey h) stored
    obtain rfl := makeHeightKey_inj.mp same
    exact ⟨(order h pos).1.mpr above, (order h pos).2.mpr below, found⟩

theorem mem_removed {key hash : Bytes} : (key, hash) ∈ s.removed before ↔
      ∃ h, key = makeHeightKey h ∧ s.archive.Removes before h ∧ s.archive.entry h = some hash := by
  rw [removed, List.mem_filter, mem_window wellFormed prunable, Bool.not_eq_true']
  constructor
  · intro inRemoved
    obtain ⟨⟨h, rfl, inWindow, isEntry⟩, notKept⟩ := inRemoved
    rw [heightOfKey_makeHeightKey] at notKept
    exact ⟨h, rfl, ⟨inWindow, notKept⟩, isEntry⟩
  · intro inIndex
    obtain ⟨h, rfl, ⟨inWindow, notKept⟩, isEntry⟩ := inIndex
    rw [heightOfKey_makeHeightKey]
    exact ⟨⟨h, rfl, inWindow, isEntry⟩, notKept⟩

theorem mem_heightsOf_window {h : Int64} :
    h ∈ heightsOf (s.window before) ↔ s.archive.InWindow before h :=
  mem_heightsOf (fun _ _ => mem_window wellFormed prunable) fun _ inWindow => inWindow.2.2

theorem mem_heightsOf_removed {h : Int64} :
    h ∈ heightsOf (s.removed before) ↔ s.archive.Removes before h :=
  mem_heightsOf (fun _ _ => mem_removed wellFormed prunable) fun _ removed => removed.1.2.2

theorem nodup_heightsOf_removed : (heightsOf (s.removed before)).Nodup := by
  have ordered : (s.removed before).Pairwise fun left right => compare left.1 right.1 = .lt :=
    (pairwise_range s.db (makeHeightKey s.base) (makeHeightKey before)).filter _
  rw [heightsOf, List.nodup_iff_pairwise_ne, List.pairwise_map]
  apply ordered.imp_of_mem
  intro left right leftMember rightMember below same
  obtain ⟨h, leftKey, -⟩ := (mem_removed wellFormed prunable).mp leftMember
  obtain ⟨k, rightKey, -⟩ := (mem_removed wellFormed prunable).mp rightMember
  rw [leftKey, rightKey, heightOfKey_makeHeightKey, heightOfKey_makeHeightKey] at same
  rw [leftKey, rightKey, same, Std.compare_self] at below
  cases below

theorem firstKept_newBase : s.archive.FirstKept before (s.newBase before) :=
  firstKept_lowestKept fun _ => mem_heightsOf_window wellFormed prunable

end Window

/-- The entries of a list are entries of the index. -/
def Indexed (s : DiskBlockStore) (part : List (Bytes × Bytes)) : Prop :=
  ∀ entry ∈ part, ∃ h, entry.1 = makeHeightKey h ∧ s.archive.entry h = some entry.2

theorem indexed_removed (wellFormed : WellFormed s) (prunable : s.archive.Prunable before) :
    s.Indexed (s.removed before) := by
  intro entry member
  obtain ⟨h, isKey, -, isEntry⟩ := (mem_removed wellFormed prunable).mp member
  exact ⟨h, isKey, isEntry⟩

/-- The store after the deletions for some entries. -/
def erased (s : DiskBlockStore) (part : List (Bytes × Bytes)) : DiskBlockStore :=
  { s with db := write s.db (deletesOf part) }

section Erased

variable {part : List (Bytes × Bytes)} (indexed : s.Indexed part)

include indexed

theorem getElem?_erased_makeHeightKey (h : Int64) : (s.erased part).db[makeHeightKey h]? =
      if h ∈ heightsOf part then none else s.db[makeHeightKey h]? := by
  have mem_iff : makeHeightKey h ∈ (part.flatMap fun entry => [entry.1, makeBlockKey entry.2]) ↔
      h ∈ heightsOf part := by
    rw [List.mem_flatMap, heightsOf, List.mem_map]
    constructor
    · intro deleted
      obtain ⟨entry, member, isKey⟩ := deleted
      rcases List.mem_cons.mp isKey with same | same
      · exact ⟨entry, member, by rw [← same, heightOfKey_makeHeightKey]⟩
      · exact absurd (List.mem_singleton.mp same) (makeHeightKey_ne_makeBlockKey h entry.2)
    · intro isHeight
      obtain ⟨entry, member, rfl⟩ := isHeight
      obtain ⟨k, isKey, -⟩ := indexed entry member
      exact ⟨entry, member, by rw [isKey, heightOfKey_makeHeightKey]; exact List.mem_cons_self⟩
  rw [erased, deletesOf, getElem?_write_delete]
  simp only [mem_iff]

theorem getElem?_erased_makeBlockKey (hash : Bytes) : (s.erased part).db[makeBlockKey hash]? =
      if hash ∈ part.map Prod.snd then none else s.db[makeBlockKey hash]? := by
  have notIndex (entry : Bytes × Bytes) (member : entry ∈ part) : makeBlockKey hash ≠ entry.1 := by
    obtain ⟨h, isKey, -⟩ := indexed entry member
    rw [isKey]
    exact makeBlockKey_ne_makeHeightKey h hash
  have mem_iff : makeBlockKey hash ∈ (part.flatMap fun entry => [entry.1, makeBlockKey entry.2]) ↔
      hash ∈ part.map Prod.snd := by
    rw [List.mem_flatMap, List.mem_map]
    constructor
    · intro deleted
      obtain ⟨entry, member, isKey⟩ := deleted
      rcases List.mem_cons.mp isKey with same | same
      · exact absurd same (notIndex entry member)
      · exact ⟨entry, member, (makeBlockKey_inj.mp (List.mem_singleton.mp same)).symm⟩
    · intro isHash
      obtain ⟨entry, member, rfl⟩ := isHash
      exact ⟨entry, member, by simp⟩
  rw [erased, deletesOf, getElem?_write_delete]
  simp only [mem_iff]

theorem getElem?_erased_of_ne {key : Bytes}
    (notHeight : ¬prefixHeight <+: key) (notBlock : ∀ hash, key ≠ makeBlockKey hash) :
    (s.erased part).db[key]? = s.db[key]? := by
  rw [erased, deletesOf, getElem?_write_delete, if_neg]
  intro deleted
  obtain ⟨entry, member, isKey⟩ := List.mem_flatMap.mp deleted
  obtain ⟨h, isIndex, -⟩ := indexed entry member
  rcases List.mem_cons.mp isKey with same | same
  · exact ne_makeHeightKey notHeight h (same.trans isIndex)
  · exact notBlock entry.2 (List.mem_singleton.mp same)

theorem archive_erased : (s.erased part).archive = s.archive.erase (· ∈ heightsOf part) := by
  have hash_mem {h : Int64} {hash : Bytes} (member : h ∈ heightsOf part)
      (isEntry : s.archive.entry h = some hash) : hash ∈ part.map Prod.snd := by
    obtain ⟨entry, inPart, rfl⟩ := List.mem_map.mp member
    obtain ⟨k, isKey, found⟩ := indexed entry inPart
    rw [isKey, heightOfKey_makeHeightKey, found] at isEntry
    exact List.mem_map.mpr ⟨entry, inPart, some.inj isEntry⟩
  refine eq_erase (b := (s.erased part).archive) ?_ ?_ ?_ ?_ rfl rfl
  · intro h isGone
    exact (getElem?_erased_makeHeightKey indexed h).trans (if_pos isGone)
  · intro h stays
    exact (getElem?_erased_makeHeightKey indexed h).trans (if_neg stays)
  · intro h hash isGone isEntry
    change (s.erased part).db[makeBlockKey hash]?.map parseBlockValue = none
    rw [getElem?_erased_makeBlockKey indexed, if_pos (hash_mem isGone isEntry)]
    rfl
  · intro hash stays
    have notDeleted : hash ∉ part.map Prod.snd := by
      intro deleted
      obtain ⟨entry, inPart, rfl⟩ := List.mem_map.mp deleted
      obtain ⟨h, isIndex, found⟩ := indexed entry inPart
      have isHeight : h ∈ heightsOf part :=
        List.mem_map.mpr ⟨entry, inPart, by rw [isIndex, heightOfKey_makeHeightKey]⟩
      exact stays h isHeight found
    change (s.erased part).db[makeBlockKey hash]?.map parseBlockValue = _
    rw [getElem?_erased_makeBlockKey indexed, if_neg notDeleted]
    rfl

omit indexed

theorem WellFormed.erased (wellFormed : WellFormed s) (part : List (Bytes × Bytes)) :
    WellFormed (s.erased part) where
  heightKey key isIndex found := by
    rw [DiskBlockStore.erased, deletesOf, getElem?_write_delete] at found
    split at found
    next => cases found
    next => exact wellFormed.heightKey key isIndex found
  base_nonneg := wellFormed.base_nonneg
  idle := wellFormed.idle

end Erased

def withBase (s : DiskBlockStore) (newBase : Int64) : DiskBlockStore :=
  { s with
    db := write s.db (s.baseBatch newBase)
    base := if s.base < newBase then newBase else s.base }

theorem pruned_eq (s : DiskBlockStore) (before : Int64) :
    s.pruned before = (s.erased (s.removed before)).withBase (s.newBase before) := rfl

theorem getElem?_withBase (s : DiskBlockStore) (newBase : Int64) (query : Bytes) :
    (s.withBase newBase).db[query]? =
      if s.base < newBase ∧ keyMetaBase = query then some (encodeWord newBase)
      else s.db[query]? :=
  getElem?_write_putIf _ _ _ _ _

theorem archive_withBase (s : DiskBlockStore) (newBase : Int64) : (s.withBase newBase).archive =
      { s.archive with base := if s.base < newBase then newBase else s.base } := by
  ext1
  · funext h
    change (s.withBase newBase).db[makeHeightKey h]? = _
    rw [getElem?_withBase, if_neg fun both =>
      ne_makeHeightKey not_prefixHeight_isPrefix_keyMetaBase h both.2]
    rfl
  · funext hash
    change (s.withBase newBase).db[makeBlockKey hash]?.map parseBlockValue = _
    rw [getElem?_withBase, if_neg fun both => keyMetaBase_ne_makeBlockKey hash both.2]
    rfl
  · rfl
  · rfl
  · rfl

theorem WellFormed.withBase (wellFormed : WellFormed s) (newBase : Int64) :
    WellFormed (s.withBase newBase) where
  heightKey key isIndex found := by
    have other : ¬(s.base < newBase ∧ keyMetaBase = key) := fun both =>
      not_prefixHeight_isPrefix_keyMetaBase (both.2 ▸ isIndex)
    rw [getElem?_withBase, if_neg other] at found
    exact wellFormed.heightKey key isIndex found
  base_nonneg := by
    change 0 ≤ if s.base < newBase then newBase else s.base
    split
    next above => exact Int64.le_of_lt (Int64.lt_of_le_of_lt wellFormed.base_nonneg above)
    next => exact wellFormed.base_nonneg
  idle := wellFormed.idle

section Pruned

variable (wellFormed : WellFormed s) (prunable : s.archive.Prunable before)
  (room : s.archive.base < before)

include wellFormed prunable room

theorem base_pruned : (s.pruned before).base = s.newBase before := by
  have above := (firstKept_newBase wellFormed prunable).base_le room
  change (if s.base < s.newBase before then s.newBase before else s.base) = s.newBase before
  split
  next => rfl
  next notAbove => exact Int64.le_antisymm above (Int64.not_lt.mp notAbove)

theorem archive_pruned : (s.pruned before).archive = s.archive.prune before := by
  have first := firstKept_newBase wellFormed prunable
  have base := base_pruned wellFormed prunable room
  have gone : (· ∈ heightsOf (s.removed before)) = s.archive.Removes before := by
    funext h
    exact propext (mem_heightsOf_removed wellFormed prunable)
  apply eq_prune prunable room
  · rw [pruned_eq, archive_withBase, archive_erased (indexed_removed wellFormed prunable), gone]
  · change s.archive.FirstKept before (s.pruned before).base
    rwa [base]

end Pruned

/-- The store and the result after deletions that took effect. -/
abbrev Deletion := DiskBlockStore → Int64 → DiskBlockStore × PruneResult

variable (delete : Deletion)

/-- `Prune` up to how blocks are deleted. The flag of a pruning under way is set only
while the lock is held. -/
def pruneWith (s : DiskBlockStore) (before : Int64) :
    DiskBlockStore × Except PruneError PruneResult :=
  if before ≤ 0 then (s, .error .invalidPruneHeight)
  else if s.height < before then (s, .error .pruneHeightTooHigh)
  else if s.pruning then (s, .error .pruningInProgress)
  else if before ≤ s.base then
    (s, .ok { prunedCount := 0, newBase := s.base, bytesFreed := 0 })
  else ((delete s before).1, .ok (delete s before).2)

/-- What the deletions have to come to. -/
def Deletes : Prop :=
  ∀ s before, ∃ bytesFreed, delete s before =
    (s.pruned before,
      { prunedCount := Int64.ofNat (s.removed before).length
        newBase := (s.pruned before).base
        bytesFreed })

theorem pruneWith_of_not_prunable (impossible : ¬s.archive.Prunable before) :
    ∃ err, pruneWith delete s before = (s, .error err) := by
  unfold pruneWith
  split
  next => exact ⟨_, rfl⟩
  next pos =>
    split
    next => exact ⟨_, rfl⟩
    next bound => exact absurd ⟨Int64.not_le.mp pos, Int64.not_lt.mp bound⟩ impossible

theorem pruneWith_of_prunable (wellFormed : WellFormed s) (prunable : s.archive.Prunable before) :
    pruneWith delete s before =
      if s.archive.base < before then ((delete s before).1, .ok (delete s before).2)
      else (s, .ok { prunedCount := 0, newBase := s.base, bytesFreed := 0 }) := by
  have bound : ¬s.height < before := Int64.not_lt.mpr prunable.2
  have idle : ¬s.pruning = true := by simp [wellFormed.idle]
  rw [pruneWith, if_neg (Int64.not_le.mpr prunable.1), if_neg bound, if_neg idle]
  by_cases room : s.archive.base < before
  · rw [if_pos room]
    exact if_neg (Int64.not_le.mpr room)
  · rw [if_neg room]
    exact if_pos (Int64.not_lt.mp room)

theorem pos_of_hasBlock (wellFormed : WellFormed s) (stored : s.archive.hasBlock h = true) :
    0 < h := by
  obtain ⟨k, pos, same⟩ :=
    wellFormed.heightKey _ (prefixHeight_isPrefix_makeHeightKey h) stored
  rwa [makeHeightKey_inj.mp same]

theorem prunedCount_eq (wellFormed : WellFormed s) (prunable : s.archive.Prunable before) :
    (Int64.ofNat (s.removed before).length).toInt =
      {h | s.archive.Removes before h}.ncard := by
  have counted := toInt_ofNat_removed (nodup_heightsOf_removed wellFormed prunable)
    (fun h => mem_heightsOf_removed wellFormed prunable) fun h => pos_of_hasBlock wellFormed
  rwa [heightsOf, List.length_map] at counted

@[reducible] def archiveStore (deletes : Deletes delete) : ArchiveStore DiskBlockStore where
  saveBlock := saveBlock
  loadBlock := loadBlock
  hasBlock := hasBlock
  height := height
  loadBlockByHash := loadBlockByHash
  base := base
  prune := pruneWith delete
  pruneConfig := pruneCfg
  setPruneConfig := setPruneConfig
  checked := false
  new := new
  WellFormed := WellFormed
  archive := archive
  wellFormed_new := wellFormed_new
  archive_new := archive_new
  loadBlock_eq s _ := s.loadBlock_archive
  loadBlockByHash_eq _ _ := rfl
  hasBlock_eq _ _ := rfl
  height_eq _ := rfl
  base_eq _ := rfl
  pruneConfig_eq _ := rfl
  saveBlock_spec s h hash data wellFormed pos := saveBlock_spec wellFormed pos hash data
  prune_fails _ _ := pruneWith_of_not_prunable delete
  prune_succeeds s before wellFormed prunable := by
    rw [pruneWith_of_prunable delete wellFormed prunable]
    by_cases room : s.archive.base < before
    · obtain ⟨bytesFreed, outcome⟩ := deletes s before
      rw [if_pos room, outcome]
      exact ⟨(wellFormed.erased _).withBase _, archive_pruned wellFormed prunable room, _, rfl,
        prunedCount_eq wellFormed prunable⟩
    · have impossible : ¬(s.archive.Prunable before ∧ s.archive.base < before) :=
        fun possible => room possible.2
      rw [if_neg room, Archive.prune_of_not impossible]
      refine ⟨wellFormed, rfl, _, rfl, ?_⟩
      rw [Archive.ncard_removes_of_no_room room]
      rfl
  setPruneConfig_spec s cfg wellFormed :=
    ⟨⟨wellFormed.heightKey, wellFormed.base_nonneg, wellFormed.idle⟩, rfl⟩

end DiskBlockStore

end Blockberry
