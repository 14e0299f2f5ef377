import Blockberry.Lib.Budget
import Blockberry.Mempool.Simple

/-!
# Reaping the simple mempool

`ReapTxs` passes over a nil slice as if the hash were missing in the map. But the copy that `AddTx`
stores of the empty transaction is nil, so that transaction is held and never reaped.
-/

namespace Blockberry.Mempool

open Budget SimpleMempool

namespace SimpleMempool

/-- The loop of `ReapTxs`, with the bytes taken so far. -/
def reapLoop (m : SimpleMempool) (maxBytes : Int) : Int → List Bytes → List Bytes
  | _, [] => []
  | totalBytes, hash :: rest =>
    match m.txs.lookup hash with
    | none | some none => reapLoop m maxBytes totalBytes rest
    | some (some tx) =>
      if 0 < maxBytes ∧ maxBytes < totalBytes + tx.length then []
      else tx :: reapLoop m maxBytes (totalBytes + tx.length) rest

variable (m : SimpleMempool)

/-- The limit: the argument, or the configured one if it is not positive. -/
def reapLimit (maxBytes : Int) : Int :=
  if maxBytes ≤ 0 then m.maxBytes else maxBytes

def reapTxs (maxBytes : Int) : List Bytes :=
  m.reapLoop (m.reapLimit maxBytes) 0 m.order

/-- What the loop takes for the transaction of a hash. -/
def present (hash : Bytes) : Option Bytes := (m.txs.lookup hash).join

/-- The loop takes from the transactions that it takes for present. -/
theorem reapLoop_eq_take (maxBytes totalBytes : Int) (hashes : List Bytes) :
    m.reapLoop maxBytes totalBytes hashes =
      take (fun tx : Bytes => (tx.length : Int)) maxBytes totalBytes
        (hashes.filterMap m.present) := by
  induction hashes generalizing totalBytes with
  | nil => rfl
  | cons hash rest ih =>
    cases found : m.txs.lookup hash with
    | none =>
      have absent : m.present hash = none := by rw [present, found, Option.join_none]
      simp only [reapLoop, found]
      rw [List.filterMap_cons_none absent, ih]
    | some slice =>
      cases slice with
      | none =>
        have absent : m.present hash = none := by rw [present, found, Option.join_some]
        simp only [reapLoop, found]
        rw [List.filterMap_cons_none absent, ih]
      | some tx =>
        have isPresent : m.present hash = some tx := by
          rw [present, found, Option.join_some]
        simp only [reapLoop, found]
        rw [List.filterMap_cons_some isPresent, take, ih]

end SimpleMempool

theorem copyBytes_eq_none_iff {tx : Bytes} : copyBytes tx = none ↔ tx = [] := by
  cases tx with
  | nil | cons => simp [copyBytes]

theorem copyBytes_eq_some {tx other : Bytes} (isCopy : copyBytes tx = some other) :
    tx = other ∧ other ≠ [] := by
  cases tx with
  | nil => cases isCopy
  | cons byte rest =>
    cases isCopy
    exact ⟨rfl, List.cons_ne_nil _ _⟩

namespace Recorded

variable {hashTx : Bytes → Bytes} {maxTxs maxBytes : Int} {s : Recorded}

/-- The transactions held, in the order of insertion. -/
def heldTxs (s : Recorded) : List Bytes := s.held.map Held.tx

structure ReapsHeld (hashTx : Bytes → Bytes) (s : Recorded) : Prop where
  longest : ∀ maxBytes, LongestPrefix
    (Fits (fun tx : Bytes => (tx.length : Int)) (s.mempool.reapLimit maxBytes))
    (s.mempool.reapTxs maxBytes) s.heldTxs
  reached : ∀ before tx after, s.heldTxs = before ++ tx :: after →
    ((s.mempool.removeTxs (before.map hashTx)).reapTxs 0).head? = some tx

variable (valid : Valid hashTx maxTxs maxBytes s)

include valid

theorem Valid.hasTx_iff (hash : Bytes) :
    s.mempool.hasTx hash = true ↔ ∃ tx ∈ s.heldTxs, hashTx tx = hash := by
  rw [hasTx, Finmap.lookup_isSome, valid.stores.mem_iff, heldTxs]
  simp only [List.mem_map, exists_exists_and_eq_and]

theorem Valid.filterMap_present :
    s.mempool.order.filterMap s.mempool.present = s.held.filterMap fun entry =>
      copyBytes entry.tx := by
  rw [valid.order, List.filterMap_map]
  refine List.filterMap_congr ?_
  intro entry isHeld
  have found := (valid.stores.lookup_iff _ _).mpr ⟨entry, isHeld, rfl, rfl⟩
  rw [Function.comp_apply, present, found, Option.join_some]

theorem Valid.nil_not_mem_reapTxs (limit : Int) : [] ∉ s.mempool.reapTxs limit := by
  intro isReaped
  rw [reapTxs, reapLoop_eq_take, valid.filterMap_present] at isReaped
  obtain ⟨entry, -, isCopy⟩ := List.mem_filterMap.mp ((take_isPrefix _ _).subset isReaped)
  exact (copyBytes_eq_some isCopy).2 rfl

theorem Valid.fits :
    Fits (fun tx : Bytes => (tx.length : Int)) (s.mempool.reapLimit 0) s.heldTxs := by
  intro limited
  have isLimit : s.mempool.reapLimit 0 = maxBytes := (if_pos le_rfl).trans valid.maxBytes_eq
  rw [isLimit] at limited ⊢
  have bound := valid.bytes limited
  rw [valid.stores.sizeBytes] at bound
  rw [total, heldTxs, List.map_map]
  exact bound

/-- Without the empty transaction, reaping takes from the transactions held. -/
theorem Valid.longest (noEmpty : [] ∉ s.heldTxs) (limit : Int) :
    LongestPrefix (Fits (fun tx : Bytes => (tx.length : Int)) (s.mempool.reapLimit limit))
      (s.mempool.reapTxs limit) s.heldTxs := by
  have copies : (s.held.filterMap fun entry => copyBytes entry.tx) = s.heldTxs := by
    rw [heldTxs, ← List.filterMap_eq_map]
    refine List.filterMap_congr ?_
    intro entry isHeld
    cases isCopy : copyBytes entry.tx with
    | none =>
      rw [copyBytes_eq_none_iff] at isCopy
      exact absurd (isCopy ▸ List.mem_map_of_mem isHeld) noEmpty
    | some tx => rw [Function.comp_apply, (copyBytes_eq_some isCopy).1]
  rw [reapTxs, reapLoop_eq_take, valid.filterMap_present, copies]
  exact longestPrefix_take (fun tx => Int.natCast_nonneg _) _

theorem Valid.heldTxs_removeTxs {before after : List Bytes} (isHeld : s.heldTxs = before ++ after) :
    (s.next hashTx (.removeTxs (before.map hashTx))).heldTxs = after := by
  have nodup : (s.heldTxs.map hashTx).Nodup := by
    rw [heldTxs, List.map_map]
    exact valid.stores.nodup
  have filtered : (s.next hashTx (.removeTxs (before.map hashTx))).heldTxs =
      s.heldTxs.filter fun tx => !(before.map hashTx).contains (hashTx tx) := by
    rw [heldTxs, heldTxs, List.filter_map]
    rfl
  rw [filtered, isHeld, List.filter_append]
  rw [isHeld, List.map_append, List.nodup_append] at nodup
  have noneBefore : before.filter (fun tx => !(before.map hashTx).contains (hashTx tx)) = [] := by
    refine List.filter_eq_nil_iff.mpr ?_
    intro tx isBefore
    simp only [List.contains_iff_mem.mpr (List.mem_map_of_mem isBefore), Bool.not_true]
    exact Bool.false_ne_true
  have allAfter : after.filter (fun tx => !(before.map hashTx).contains (hashTx tx)) = after := by
    refine List.filter_eq_self.mpr ?_
    intro tx isAfter
    rw [Bool.not_eq_true', Bool.eq_false_iff, ne_eq, List.contains_iff_mem]
    intro isBefore
    exact nodup.2.2 _ isBefore _ (List.mem_map_of_mem isAfter) rfl
  rw [noneBefore, allAfter, List.nil_append]

theorem Valid.reached (noEmpty : [] ∉ s.heldTxs)
    {before after : List Bytes} {tx : Bytes} (isHeld : s.heldTxs = before ++ tx :: after) :
    ((s.mempool.removeTxs (before.map hashTx)).reapTxs 0).head? = some tx := by
  have validNext := valid.next (.removeTxs (before.map hashTx))
  have left := valid.heldTxs_removeTxs isHeld
  have longest := validNext.longest (by
    rw [left]
    intro isEmpty
    exact noEmpty (isHeld ▸ List.mem_append_right before isEmpty)) 0
  have whole := longest.longest _ List.prefix_rfl validNext.fits
  rw [left] at whole
  obtain ⟨rest, isReaped⟩ := whole
  change ((s.next hashTx (.removeTxs (before.map hashTx))).mempool.reapTxs 0).head? = some tx
  rw [← isReaped]
  rfl

theorem Valid.reapsHeld_iff : s.ReapsHeld hashTx ↔ [] ∉ s.heldTxs := by
  constructor
  · intro reaps isHeld
    have whole := (reaps.longest 0).longest _ List.prefix_rfl valid.fits
    exact valid.nil_not_mem_reapTxs 0 (whole.subset isHeld)
  · intro noEmpty
    exact ⟨valid.longest noEmpty, fun _ _ _ isHeld => valid.reached noEmpty isHeld⟩

end Recorded

/-- After every sequence of calls the mempool knows the transactions held by their hashes, and reaps
them in the order of insertion if and only if the empty one is not among them. -/
theorem simpleMempool_reapsHeld_iff (hashTx : Bytes → Bytes) (maxTxs maxBytes maxTxSize : Int)
    (ops : List SimpleMempool.Op) :
    let s := Recorded.run hashTx maxTxs maxBytes maxTxSize ops
    (∀ hash, s.mempool.hasTx hash = true ↔ ∃ tx ∈ s.heldTxs, hashTx tx = hash) ∧
      (s.ReapsHeld hashTx ↔ [] ∉ s.heldTxs) := by
  have valid := Recorded.valid_run hashTx maxTxs maxBytes maxTxSize ops
  exact ⟨valid.hasTx_iff, valid.reapsHeld_iff⟩

/-- The empty transaction is accepted and held before another one, and only the other one is
reaped. -/
theorem empty_never_reaped :
    let s := Recorded.run id 0 0 0
      [.setTxValidator (some fun _ => none), .addTx (some []), .addTx (some [1])]
    s.heldTxs = [[], [1]] ∧ s.mempool.hasTx [] = true ∧ s.mempool.reapTxs 0 = [[1]] := by
  decide +kernel

end Blockberry.Mempool
