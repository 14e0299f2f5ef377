import Blockberry.Indexer.Entries

/-!
# Consistency of the index

The secondary entries of a hash should be those of the record that is stored for it.
`Delete` keeps this. `Index` leaves the entries of the record that it overwrites, and may
overwrite an event entry of another hash, since different events can have the same key.
-/

namespace Blockberry.Indexer

open BigEndian KeyValue List

namespace TxIndexer

variable {json : Json} {idx : TxIndexer} {result : TxIndexResult} {hash key : Bytes}

/-- The secondary entries for a hash are those of the record that is stored for it. -/
def Consistent (json : Json) (idx : TxIndexer) : Prop :=
  ∀ key, Secondary key → ∀ hash, idx.db[key]? = some hash ↔
    ∃ result, idx.stored json hash = some result ∧ key ∈ idx.keysOf result hash

/-- A record that is indexed has the secondary keys of the one that it replaces, and none of
a record for another hash. -/
structure Replaces (json : Json) (idx : TxIndexer) (result : TxIndexResult) : Prop where
  covers : ∀ old, idx.stored json result.hash = some old →
    ∀ key ∈ idx.keysOf old result.hash, key ∈ idx.keysOf result result.hash
  separate : ∀ hash other, hash ≠ result.hash → idx.stored json hash = some other →
    ∀ key ∈ idx.keysOf other hash, key ∉ idx.keysOf result result.hash

/-- Only calls of `Index` with a hash are restricted. -/
def KeepsConsistent (json : Json) (idx : TxIndexer) : Op → Prop
  | .index (some result) => result.hash ≠ [] → Replaces json idx result
  | _ => True

theorem Consistent.put_iff (consistent : idx.Consistent json) (result : TxIndexResult) :
    (idx.put json result).Consistent json ↔ Replaces json idx result := by
  constructor
  · intro after
    constructor
    · intro old isOld key member
      have entry := (consistent key (secondary_of_mem member) result.hash).mpr ⟨old, isOld, member⟩
      by_contra missing
      have kept := (after key (secondary_of_mem member) result.hash).mp (by
        rw [put_secondary idx result (secondary_of_mem member), if_neg missing, entry])
      rw [stored_put, if_pos rfl] at kept
      obtain ⟨_, isResult, inResult⟩ := kept
      cases isResult
      exact missing inResult
    · intro hash other different isOther key inOther inResult
      have entry := (after key (secondary_of_mem inOther) hash).mpr (by
        rw [stored_put, if_neg different.symm]
        exact ⟨other, isOther, inOther⟩)
      rw [put_secondary idx result (secondary_of_mem inOther), if_pos inResult] at entry
      exact different (Option.some.inj entry).symm
  · intro replaces key secondary hash
    rw [put_secondary idx result secondary, stored_put]
    by_cases isNew : result.hash = hash
    · subst isNew
      rw [if_pos rfl]
      constructor
      · intro entry
        refine ⟨result, rfl, ?_⟩
        change key ∈ idx.keysOf result result.hash
        by_contra missing
        rw [if_neg missing] at entry
        obtain ⟨old, isOld, inOld⟩ := (consistent key secondary result.hash).mp entry
        exact missing (replaces.covers old isOld key inOld)
      · intro derived
        obtain ⟨_, isResult, inResult⟩ := derived
        cases isResult
        exact if_pos inResult
    · rw [if_neg isNew]
      by_cases inResult : key ∈ idx.keysOf result result.hash
      · rw [if_pos inResult]
        constructor
        · intro same
          exact absurd (Option.some.inj same) isNew
        · intro derived
          obtain ⟨other, isOther, inOther⟩ := derived
          exact absurd inResult (replaces.separate hash other (Ne.symm isNew) isOther key inOther)
      · rw [if_neg inResult]
        exact consistent key secondary hash

theorem Consistent.erase (consistent : idx.Consistent json)
    (found : idx.stored json hash = some result) : (idx.erase result hash).Consistent json := by
  intro key secondary query
  rw [erase_secondary idx result hash secondary, stored_erase]
  by_cases inResult : key ∈ idx.keysOf result hash
  · have entry := (consistent key secondary hash).mpr ⟨result, found, inResult⟩
    rw [if_pos inResult]
    constructor
    · intro impossible
      cases impossible
    · intro derived
      obtain ⟨other, isOther, inOther⟩ := derived
      split at isOther
      next => cases isOther
      next different =>
        have otherEntry := (consistent key secondary query).mpr ⟨other, isOther, inOther⟩
        exact absurd (Option.some.inj (otherEntry.symm.trans entry)) different
  · rw [if_neg inResult, consistent key secondary query]
    by_cases same : query = hash
    · subst same
      rw [if_pos rfl]
      constructor
      · intro derived
        obtain ⟨other, isOther, inOther⟩ := derived
        cases isOther.symm.trans found
        exact absurd inOther inResult
      · intro derived
        obtain ⟨_, impossible, -⟩ := derived
        cases impossible
    · rw [if_neg same]
      exact Iff.rfl

/-- An open index whose entries are consistent. -/
structure Sound (json : Json) (idx : TxIndexer) : Prop where
  isOpen : idx.closed = false
  consistent : idx.Consistent json

theorem sound_new (json : Json) (indexAllEvents : Bool) :
    (newTxIndexer indexAllEvents).Sound json where
  isOpen := rfl
  consistent key _ hash := by simp [newTxIndexer, stored]

variable (sound : idx.Sound json)

include sound

theorem Sound.consistent_step_iff (op : Op) :
    (idx.step json op).Consistent json ↔ idx.KeepsConsistent json op := by
  rcases step_cases sound.isOpen op with
    ⟨same, unchanged⟩ | ⟨result, rfl, nonempty, isPut⟩ | ⟨hash, result, rfl, -, found, isErase⟩
  · rw [same]
    apply iff_of_true sound.consistent
    rcases unchanged with ⟨hash, rfl, -⟩ | ⟨result, rfl, empty⟩
    · trivial
    · cases result with
      | none => trivial
      | some result => exact fun nonempty => absurd (empty result rfl) nonempty
  · rw [isPut, sound.consistent.put_iff]
    exact ⟨fun replaces _ => replaces, fun keeps => keeps nonempty⟩
  · rw [isErase]
    exact iff_of_true (sound.consistent.erase found) trivial

theorem Sound.step {op : Op}
    (consistent : (idx.step json op).Consistent json) : (idx.step json op).Sound json :=
  ⟨closed_step sound.isOpen op, consistent⟩

theorem Sound.everyStep_iff (ops : List Op) :
    Run.EveryStep (TxIndexer.step json) (fun idx op => (idx.step json op).Consistent json) idx ops ↔
      Run.EveryStep (TxIndexer.step json) (KeepsConsistent json) idx ops :=
  Run.everyStep_iff sound (fun _ op sound => sound.consistent_step_iff op)
    (fun _ op sound keeps => sound.step ((sound.consistent_step_iff op).mpr keeps)) ops

theorem Sound.after {ops : List Op}
    (every : Run.EveryStep (TxIndexer.step json) (KeepsConsistent json) idx ops) :
    (Run.after (TxIndexer.step json) idx ops).Sound json :=
  every.invariant sound fun _ op sound keeps =>
    sound.step ((sound.consistent_step_iff op).mpr keeps)

omit sound

section Heights

/-- What a query asks of a height. -/
def Asks (op : Operator) (height queried : UInt64) : Prop :=
  match op with
  | .greaterEqual => queried ≤ height
  | .lessEqual => height ≤ queried
  | .notEqual => height ≠ queried
  | .equal => height = queried
  | .greater => queried < height
  | .less => height < queried

theorem length_encodeHeight (height : UInt64) : (encodeHeight height).length = 8 :=
  length_encode 8 _

theorem compare_encodeHeight (left right : UInt64) :
    compare (encodeHeight left) (encodeHeight right) = compare left.toNat right.toNat :=
  compare_encode left.toNat_lt right.toNat_lt

theorem eq_txHeightKey_of_mem (member : key ∈ idx.keysOf result hash)
    (isHeight : prefixTxByHeight <+: key) : key = txHeightKey result.height hash := by
  rcases mem_cons.mp member with same | isEvent
  · exact same
  · obtain ⟨attr, -, rfl⟩ := mem_map.mp isEvent
    simp [txEventKey, eventPrefix, prefixTxByHeight, prefixTxByEvent] at isHeight

theorem secondary_of_height (isHeight : prefixTxByHeight <+: key) : Secondary key := by
  intro hash same
  rw [same] at isHeight
  simp [txHashKey, prefixTxByHeight, prefixTxByHash] at isHeight

theorem Consistent.exists_of_height (consistent : idx.Consistent json)
    (isHeight : prefixTxByHeight <+: key) (entry : idx.db[key]? = some hash) :
    ∃ result, idx.stored json hash = some result ∧ key = txHeightKey result.height hash := by
  obtain ⟨result, found, member⟩ :=
    (consistent key (secondary_of_height isHeight) hash).mp entry
  exact ⟨result, found, eq_txHeightKey_of_mem member isHeight⟩

variable {height : UInt64}

theorem encodeHeight_prefix_iff {queried : UInt64} :
    encodeHeight queried <+: encodeHeight height ++ hash ↔ queried = height := by
  have lengths : (encodeHeight queried).length = (encodeHeight height).length := by
    rw [length_encodeHeight, length_encodeHeight]
  constructor
  · intro isPrefix
    have same := (prefix_of_prefix_length_le isPrefix (prefix_append _ _)
      lengths.le).eq_of_length lengths
    exact UInt64.toNat_inj.mp (encode_inj queried.toNat_lt height.toNat_lt same)
  · rintro rfl
    exact prefix_append _ _

theorem Consistent.exists_of_under (consistent : idx.Consistent json)
    (member : hash ∈ idx.under (prefixTxByHeight ++ encodeHeight height)) :
    ∃ result, idx.stored json hash = some result ∧ result.height = height := by
  obtain ⟨key, isPrefix, entry⟩ := mem_under.mp member
  obtain ⟨result, found, rfl⟩ :=
    consistent.exists_of_height ((prefix_append _ _).trans isPrefix) entry
  refine ⟨result, found, ?_⟩
  rw [txHeightKey, append_assoc, prefix_append_right_inj] at isPrefix
  exact (encodeHeight_prefix_iff.mp isPrefix).symm

theorem Consistent.exists_of_between (consistent : idx.Consistent json) {start limit : Bytes}
    (member : hash ∈ idx.between start limit) :
    ∃ result, idx.stored json hash = some result ∧
      (compare start (encodeHeight result.height ++ hash)).isLE = true ∧
      compare (encodeHeight result.height ++ hash) limit = .lt := by
  obtain ⟨⟨key, value⟩, selected, rfl⟩ := mem_map.mp member
  obtain ⟨above, below, entry⟩ := mem_range.mp selected
  obtain ⟨result, found, rfl⟩ := consistent.exists_of_height (isPrefix_of_between above below) entry
  rw [txHeightKey, append_assoc, compare_append rfl, Std.compare_self, Ordering.eq_then]
    at above below
  exact ⟨result, found, above, below⟩

theorem isLE_compare_encodeHeight {first : UInt64} :
    (compare (encodeHeight first) (encodeHeight height ++ hash)).isLE = true ↔ first ≤ height := by
  rw [← append_nil (encodeHeight first), compare_append (by
    rw [length_encodeHeight, length_encodeHeight]), compare_encodeHeight, UInt64.le_iff_toNat_le]
  rcases Nat.lt_trichotomy first.toNat height.toNat with less | same | greater
  · simp [Nat.compare_eq_lt.mpr less, less.le]
  · cases hash <;> simp [same]
  · simp [Nat.compare_eq_gt.mpr greater, greater]

theorem compare_encodeHeight_lt {limit : UInt64} :
    compare (encodeHeight height ++ hash) (encodeHeight limit) = .lt ↔ height < limit := by
  rw [← append_nil (encodeHeight limit), compare_append (by
    rw [length_encodeHeight, length_encodeHeight]), compare_encodeHeight, UInt64.lt_iff_toNat_lt]
  rcases Nat.lt_trichotomy height.toNat limit.toNat with less | same | greater
  · simp [Nat.compare_eq_lt.mpr less, less]
  · cases hash <;> simp [same]
  · simp [Nat.compare_eq_gt.mpr greater, greater.le]

/-- The hashes in the answer to a height query have records with such a height. -/
theorem Consistent.exists_of_searchByHeight (consistent : idx.Consistent json) {op : Operator}
    {value : Bytes} {hashes : List Bytes} (parsed : parseUint value = some height)
    (notWrapped : op = .greater → height ≠ maxHeight)
    (answer : idx.searchByHeight op value = .ok hashes) (member : hash ∈ hashes) :
    ∃ result, idx.stored json hash = some result ∧ Asks op result.height height := by
  rw [searchByHeight, parsed] at answer
  cases op with
  | equal =>
    cases answer
    exact consistent.exists_of_under member
  | greater =>
    cases answer
    obtain ⟨result, found, above, -⟩ := consistent.exists_of_between member
    refine ⟨result, found, ?_⟩
    have atLeast := isLE_compare_encodeHeight.mp above
    have notMax : height.toNat ≠ 2 ^ 64 - 1 := fun same => notWrapped rfl (UInt64.toNat_inj.mp same)
    have fits : height.toNat + 1 < 2 ^ 64 := by
      have bound := height.toNat_lt
      omega
    rw [UInt64.le_iff_toNat_le, UInt64.toNat_add] at atLeast
    change height < result.height
    rw [UInt64.lt_iff_toNat_lt]
    exact (Nat.mod_eq_of_lt fits).symm.trans_le atLeast
  | greaterEqual =>
    cases answer
    obtain ⟨result, found, above, -⟩ := consistent.exists_of_between member
    exact ⟨result, found, isLE_compare_encodeHeight.mp above⟩
  | less =>
    cases answer
    obtain ⟨result, found, -, below⟩ := consistent.exists_of_between member
    exact ⟨result, found, compare_encodeHeight_lt.mp below⟩
  | lessEqual =>
    cases answer
    obtain ⟨result, found, -, below⟩ := consistent.exists_of_between member
    refine ⟨result, found, ?_⟩
    have less := compare_encodeHeight_lt.mp below
    have atMost := Nat.mod_le (height.toNat + 1) (2 ^ 64)
    rw [UInt64.lt_iff_toNat_lt, UInt64.toNat_add] at less
    change result.height ≤ height
    rw [UInt64.le_iff_toNat_le]
    exact Nat.le_of_lt_succ (less.trans_le atMost)
  | notEqual => cases answer

end Heights

end TxIndexer

open TxIndexer

/-- In every run of calls on a new indexer the secondary entries are those of the stored records
exactly if every call keeps them so, and then the answers to height queries have records with such
heights. -/
theorem consistent_iff_keepsConsistent (json : Json) (indexAllEvents : Bool) (ops : List Op) :
    (Run.EveryStep (step json) (fun idx op => (idx.step json op).Consistent json)
        (newTxIndexer indexAllEvents) ops ↔
      Run.EveryStep (step json) (KeepsConsistent json) (newTxIndexer indexAllEvents) ops) ∧
    (Run.EveryStep (step json) (KeepsConsistent json) (newTxIndexer indexAllEvents) ops →
      ∀ op value height hashes, parseUint value = some height →
        (op = .greater → height ≠ maxHeight) →
        (Run.after (step json) (newTxIndexer indexAllEvents) ops).searchByHeight op value =
          .ok hashes →
        ∀ hash ∈ hashes, ∃ result,
          (Run.after (step json) (newTxIndexer indexAllEvents) ops).stored json hash =
            some result ∧ Asks op result.height height) := by
  have sound := sound_new json indexAllEvents
  refine ⟨sound.everyStep_iff ops, ?_⟩
  intro every op value height hashes parsed notWrapped answer hash member
  exact (sound.after every).consistent.exists_of_searchByHeight parsed notWrapped answer member

/-- The same hash is indexed at height 1 and again at height 2. -/
def reindexed : TxIndexer :=
  Run.after (step PlainJson.json) (newTxIndexer true)
    [.index (some ⟨[9], 1, 0, none⟩), .index (some ⟨[9], 2, 0, none⟩)]

/-- The record has height 2, and the hash is still found at height 1. -/
theorem reindexed_found_at_old_height :
    reindexed.stored PlainJson.json [9] = some ⟨[9], 2, 0, none⟩ ∧
      reindexed.searchByHeight .equal [49] = .ok [[9]] := by
  decide +kernel

end Blockberry.Indexer
