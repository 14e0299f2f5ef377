import Blockberry.Sync.Answers

/-!
# Parallel requests

The answers to parallel requests come back in any order. A response that starts above
the next height is taken for a gap and penalised, so only the order in which the
requests were made leads to a full store without a penalty.
-/

namespace Blockberry.Sync

open BlockStore LawfulBlockStore Machine PeerBlock Delivery List Run Int64 Call

section Outcome

variable (hashBlock : Bytes → Bytes) (chain : Int64 → Bytes)

/-- No peer that was asked is penalised, and in the end every block that was asked for
is stored. -/
structure FullySynced {σ : Type} [BlockStore σ] (batch : Nat) (requests : List BlockRequest)
    (final : SyncReactor σ × List Call) : Prop where
  noPenalty : ∀ req ∈ requests, ∀ points reason message,
    addPenalty req.peerID points reason message ∉ final.2
  stored : ∃ store, final.1.blockStore = some store ∧
    ∀ b ∈ allBlocks hashBlock chain batch requests,
      loadBlock store b.height = some (b.hash, b.data)

structure InOrder {σ : Type} [LawfulBlockStore σ] (batch : Nat) (store : σ)
    (requests : List BlockRequest) (deliveries : List Delivery) : Prop where
  order : deliveries.map Delivery.request = requests
  wellFormed : ∀ b ∈ allBlocks hashBlock chain batch requests, b.WellFormed
  distinct : ((allBlocks hashBlock chain batch requests).map PeerBlock.hash).Nodup
  fresh : ∀ b ∈ allBlocks hashBlock chain batch requests, hashKnown store b.hash = false

end Outcome

section Memory

variable {hashBlock : Bytes → Bytes} {chain : Int64 → Bytes}
  {r : SyncReactor MemoryBlockStore} {store : MemoryBlockStore} {blocks : List PeerBlock}
  {batch : Nat} {calls : List Call}

/-! ## Without a penalty the order is that of the requests -/

theorem penalised_or_passes (positive : 0 < batch) (hasStore : r.blockStore = some store)
    (network : r.networkSet = true) (calls : List Call) (d : Delivery) :
    (∃ points reason message, addPenalty d.request.peerID points reason message ∈
        (deliver hashBlock chain batch (r, calls) d).2) ∨
      PassesChecks store (answer hashBlock chain batch d.request.start) := by
  rcases passesChecks_or_failure store (answer hashBlock chain batch d.request.start) with
    passed | ⟨failure, possible, failed⟩
  · exact Or.inr passed
  · left
    have nonempty : (answer hashBlock chain batch d.request.start).map toBlockData ≠ [] := by
      simpa using answer_ne_nil positive d.request.start
    have outcome := SyncReactor.handleBlocksResponse_of_failure hashBlock hasStore nonempty
      failed d.schedule d.request.peerID
    have network' : (r.clearPending d.request.peerID).networkSet = true := network
    rcases rejectResponse_penalises network' possible d.request.peerID with
      ⟨points, reason, message, made⟩
    refine ⟨points, reason, message, ?_⟩
    simp only [deliver, outcome]
    exact mem_append_right _ made

theorem wellFormed_of_passesChecks (passed : PassesChecks store blocks) :
    ∀ b ∈ blocks, b.WellFormed := by
  cases blocks with
  | nil => simp
  | cons first rest => exact (passesChecks_cons_iff.mp passed).1

theorem calls_subset_after (deliveries : List Delivery)
    (state : SyncReactor MemoryBlockStore × List Call) :
    state.2 ⊆ (after (deliver hashBlock chain batch) state deliveries).2 := by
  induction deliveries generalizing state with
  | nil => exact List.Subset.refl _
  | cons d deliveries ih =>
    intro call made
    exact ih _ (mem_append_left _ made)

variable (positive : 0 < batch)

include positive

variable {deliveries : List Delivery}

theorem passesChecks_of_noPenalty {d : Delivery}
    (hasStore : r.blockStore = some store) (network : r.networkSet = true)
    (noPenalty : ∀ points reason message, addPenalty d.request.peerID points reason message ∉
        (after (deliver hashBlock chain batch) (r, calls) (d :: deliveries)).2) :
    PassesChecks store (answer hashBlock chain batch d.request.start) := by
  rcases penalised_or_passes positive hasStore network calls d with
    ⟨points, reason, message, made⟩ | passed
  · exact absurd (calls_subset_after deliveries _ made) (noPenalty points reason message)
  · exact passed

theorem run_of_noPenalty (hasStore : r.blockStore = some store) (network : r.networkSet = true)
    (noPenalty : ∀ d ∈ deliveries, ∀ points reason message,
      addPenalty d.request.peerID points reason message ∉
        (after (deliver hashBlock chain batch) (r, calls) deliveries).2) :
    (∀ b ∈ allBlocks hashBlock chain batch (deliveries.map request), b.WellFormed) ∧
      ∃ final, (after (deliver hashBlock chain batch) (r, calls) deliveries).1.blockStore =
          some final ∧
        ∀ h entry, loadBlock store h = some entry → loadBlock final h = some entry := by
  induction deliveries generalizing r store calls with
  | nil => exact ⟨by simp [allBlocks], store, hasStore, fun _ _ found => found⟩
  | cons d deliveries ih =>
    have passed := passesChecks_of_noPenalty positive hasStore network (noPenalty d mem_cons_self)
    rcases deliver_of_checked positive hasStore calls d passed with
      ⟨r', requested, delivered, hasStore', -, sameNetwork, -⟩
    rw [after_cons, delivered] at noPenalty ⊢
    rcases ih hasStore' (sameNetwork.trans network)
      (fun d member => noPenalty d (mem_cons_of_mem _ member)) with
      ⟨wellFormed, final, isFinal, kept⟩
    refine ⟨?_, final, isFinal, fun h entry found => kept h entry (loadBlock_storeBlocks found)⟩
    intro b member
    rcases mem_append.mp member with now | later
    · exact wellFormed_of_passesChecks passed b now
    · exact wellFormed b later

variable {base : ℤ}

/-- A request further on starts above the height that the first answer may have. -/
theorem start_gt_of_mem {req other : BlockRequest} {rest : List BlockRequest}
    (ascending : Ascending (allBlocks hashBlock chain batch (req :: rest)))
    (starts : ∀ b ∈ (allBlocks hashBlock chain batch (req :: rest)).head?,
      b.height.toInt = base + 1) (later : other ∈ rest) :
    base + 1 < other.start.toInt := by
  have member : chainBlock hashBlock chain other.start ∈ allBlocks hashBlock chain batch rest :=
    mem_flatMap.mpr ⟨other, later, by
      cases batch with
      | zero => contradiction
      | succ n => exact mem_cons_self⟩
  rw [allBlocks_cons] at ascending starts
  have nextStarts := ascending.head_append starts
  rw [length_answer] at nextStarts
  have above := (ascending.right.bounds nextStarts member).1
  change base + batch < other.start.toInt at above
  omega

theorem start_le_of_passesChecks {start : Int64}
    (passed : PassesChecks store (answer hashBlock chain batch start)) :
    start ≤ height store + 1 := by
  cases batch with
  | zero => contradiction
  | succ n => exact (passesChecks_cons_iff.mp passed).2.1

/-- An answer that passes while the store is below the first request is the one to the
first request. -/
theorem first_of_passesChecks {req other : BlockRequest} {rest : List BlockRequest}
    (ascending : Ascending (allBlocks hashBlock chain batch (req :: rest)))
    (starts : ∀ b ∈ (allBlocks hashBlock chain batch (req :: rest)).head?,
      b.height.toInt = base + 1)
    (low : (height store).toInt ≤ base) (asked : other ∈ req :: rest)
    (passed : PassesChecks store (answer hashBlock chain batch other.start)) :
    other = req := by
  rcases mem_cons.mp asked with same | later
  · exact same
  · have above := start_gt_of_mem positive ascending starts later
    have below := le_iff_toInt_le.mp (start_le_of_passesChecks positive passed)
    have next : (height store + 1).toInt ≤ (height store).toInt + 1 := toInt_add_le (by decide)
    omega

omit positive

theorem height_storeBlocks_answer_le (r : SyncReactor MemoryBlockStore) (peerID : PeerID)
    {start : Int64} (nonneg : 0 ≤ base) (low : (height store).toInt ≤ base)
    (ascending : Ascending (answer hashBlock chain batch start))
    (starts : ∀ b ∈ (answer hashBlock chain batch start).head?, b.height.toInt = base + 1) :
    (height (r.storeBlocks hashBlock peerID store
      (answer hashBlock chain batch start)).1).toInt ≤ base + batch := by
  apply height_storeBlocks_le (by omega) (by omega)
  intro b member
  have bounds := ascending.bounds starts member
  rw [length_answer] at bounds
  exact bounds.2

/-- Without a penalty the answers come in the order of the requests: every answer that
passes raises the height to the end of its own range at most. -/
theorem order_of_noPenalty (positive : 0 < batch) {requests : List BlockRequest}
    (hasStore : r.blockStore = some store) (network : r.networkSet = true)
    (ascending : Ascending (allBlocks hashBlock chain batch requests))
    (starts : ∀ b ∈ (allBlocks hashBlock chain batch requests).head?, b.height.toInt = base + 1)
    (nonneg : 0 ≤ base) (low : (height store).toInt ≤ base)
    (answered : (deliveries.map request).Perm requests)
    (noPenalty : ∀ d ∈ deliveries, ∀ points reason message,
      addPenalty d.request.peerID points reason message ∉
        (after (deliver hashBlock chain batch) (r, calls) deliveries).2) :
    deliveries.map request = requests := by
  induction deliveries generalizing r store calls requests base with
  | nil => exact (nil_perm.mp answered).symm
  | cons d deliveries ih =>
    cases requests with
    | nil => exact absurd answered.length_eq (by simp)
    | cons req rest =>
      have passed := passesChecks_of_noPenalty positive hasStore network (noPenalty d mem_cons_self)
      have asked : d.request ∈ req :: rest := answered.subset mem_cons_self
      have isFirst := first_of_passesChecks positive ascending starts low asked passed
      rcases deliver_of_checked positive hasStore calls d passed with
        ⟨r', requested, delivered, hasStore', -, sameNetwork, -⟩
      rw [map_cons, isFirst] at answered ⊢
      rw [after_cons, delivered] at noPenalty
      rw [allBlocks_cons] at ascending starts
      have nextStarts := ascending.head_append starts
      rw [length_answer] at nextStarts
      have raised := height_storeBlocks_answer_le (r.clearPending d.request.peerID)
        d.request.peerID nonneg low ascending.left
        (fun b isHead => starts b (mem_head?_append_of_mem_head? isHead))
      rw [← isFirst] at raised
      rw [ih hasStore' (sameNetwork.trans network) ascending.right nextStarts (by omega)
        raised answered.cons_inv
        (fun d member => noPenalty d (mem_cons_of_mem _ member))]

theorem distinct_of_stored {final : MemoryBlockStore} (ascending : Ascending blocks)
    (stored : ∀ b ∈ blocks, loadBlock final b.height = some (b.hash, b.data)) :
    (blocks.map PeerBlock.hash).Nodup := by
  induction blocks with
  | nil => exact nodup_nil
  | cons b rest ih =>
    rcases forall_mem_cons.mp stored with ⟨bStored, restStored⟩
    rw [map_cons, nodup_cons]
    refine ⟨?_, ih ascending.tail restStored⟩
    intro again
    rcases mem_map.mp again with ⟨c, member, same⟩
    have found := restStored c member
    rw [same] at found
    exact ascending.height_ne member (MemoryBlockStore.height_eq_of_hash_eq found bStored)

/-- A hash that the store knew before cannot be stored at a greater height as well. -/
theorem fresh_of_stored {final : MemoryBlockStore} {b : PeerBlock}
    (kept : ∀ h entry, loadBlock store h = some entry → loadBlock final h = some entry)
    (stored : loadBlock final b.height = some (b.hash, b.data))
    (above : (height store).toInt < b.height.toInt) : hashKnown store b.hash = false := by
  by_contra known
  rw [Bool.not_eq_false] at known
  rcases MemoryBlockStore.exists_of_hashKnown known with ⟨h, data, found⟩
  have same := MemoryBlockStore.height_eq_of_hash_eq (kept h _ found) stored
  have isStored : hasBlock store h = true := by
    rw [hasBlock_eq, found]
    rfl
  have below := le_iff_toInt_le.mp (le_height store h isStored)
  rw [same] at below
  exact absurd below (not_le.mpr above)

/-- Well-formed blocks from the next height on show that the next height did not
overflow. -/
theorem starts_of_wellFormed {n : Nat}
    (wellFormed : ∀ b ∈ answer hashBlock chain n (height store + 1), b.WellFormed) :
    ∀ b ∈ (answer hashBlock chain n (height store + 1)).head?,
      b.height.toInt = (height store).toInt + 1 := by
  cases n with
  | zero => simp [answer]
  | succ n =>
    intro b isHead
    cases isHead
    have valid := (validateBlockData_some_eq_none_iff.mp (wellFormed _ mem_cons_self)).1.1
    have nonneg : 0 ≤ (height store + 1).toInt := le_iff_toInt_le.mp valid
    have lower := (height store).le_toInt
    rcases lt_or_ge ((height store).toInt + (1 : Int64).toInt) (2 ^ 63) with small | overflow
    · have one : (1 : Int64).toInt = 1 := rfl
      exact toInt_add_of_inRange ⟨by omega, small⟩
    · exact absurd (toInt_add_neg_of_overflow overflow) (not_lt.mpr nonneg)

section Whole

variable {requests : List BlockRequest} {deliveries : List Delivery}

theorem mem_allBlocks_of_perm (answered : (deliveries.map request).Perm requests) {b : PeerBlock} :
    b ∈ allBlocks hashBlock chain batch (deliveries.map request) ↔
      b ∈ allBlocks hashBlock chain batch requests :=
  (answered.flatMap_right _).mem_iff

theorem fullySynced_of_inOrder (positive : 0 < batch) (hasStore : r.blockStore = some store)
    (oneChain : allBlocks hashBlock chain batch requests =
      answer hashBlock chain (requests.length * batch) (height store + 1))
    (accepted : ∀ b ∈ allBlocks hashBlock chain batch requests,
      r.validator.getD defaultBlockValidator b.height b.hash b.data = none)
    (inOrder : InOrder hashBlock chain batch store requests deliveries) :
    FullySynced hashBlock chain batch requests
      (after (deliver hashBlock chain batch) (r, []) deliveries) := by
  rcases inOrder with ⟨rfl, wellFormed, distinct, fresh⟩
  have consecutive : Consecutive (height store + 1)
      (allBlocks hashBlock chain batch (deliveries.map request)) := by
    rw [oneChain]
    exact consecutive_answer _ _
  have ready : Ready hashBlock chain r.validator store
      (allBlocks hashBlock chain batch (deliveries.map request)) :=
    { onChain := by
        intro b member
        rw [oneChain] at member
        exact eq_chainBlock_of_mem_answer member
      wellFormed
      accepted
      ascending := ascending_of_consecutive wellFormed consecutive
      next := by
        rw [oneChain] at wellFormed ⊢
        exact starts_of_wellFormed wellFormed
      distinct
      fresh }
  rcases stored_of_ready positive hasStore ready with ⟨final, isFinal, -, stored, noPenalty⟩
  exact ⟨fun req _ points reason message made =>
    absurd (noPenalty req.peerID points reason message made) not_mem_nil,
    final, isFinal, stored⟩

theorem inOrder_of_fullySynced (positive : 0 < batch) (hasStore : r.blockStore = some store)
    (network : r.networkSet = true)
    (oneChain : allBlocks hashBlock chain batch requests =
      answer hashBlock chain (requests.length * batch) (height store + 1))
    (answered : (deliveries.map request).Perm requests)
    (synced : FullySynced hashBlock chain batch requests
      (after (deliver hashBlock chain batch) (r, []) deliveries)) :
    InOrder hashBlock chain batch store requests deliveries := by
  have noPenalty : ∀ d ∈ deliveries, ∀ points reason message,
      addPenalty d.request.peerID points reason message ∉
        (after (deliver hashBlock chain batch) (r, []) deliveries).2 :=
    fun d member => synced.noPenalty d.request
      (answered.subset (mem_map_of_mem member))
  rcases run_of_noPenalty positive hasStore network noPenalty with
    ⟨delivered, final, isFinal, kept⟩
  rcases synced.stored with ⟨final', isFinal', stored⟩
  cases isFinal.symm.trans isFinal'
  have wellFormed : ∀ b ∈ allBlocks hashBlock chain batch requests, b.WellFormed :=
    fun b member => delivered b ((mem_allBlocks_of_perm answered).mpr member)
  have ascending : Ascending (allBlocks hashBlock chain batch requests) :=
    ascending_of_consecutive wellFormed (oneChain ▸ consecutive_answer _ _)
  have starts : ∀ b ∈ (allBlocks hashBlock chain batch requests).head?,
      b.height.toInt = (height store).toInt + 1 := by
    rw [oneChain] at wellFormed ⊢
    exact starts_of_wellFormed wellFormed
  exact
    { order := order_of_noPenalty positive hasStore network ascending starts
        (le_iff_toInt_le.mp (height_nonneg store)) (Int.le_refl _) answered noPenalty
      wellFormed
      distinct := distinct_of_stored ascending stored
      fresh := fun b member =>
        fresh_of_stored kept (stored b member) (ascending.bounds starts member).1 }

end Whole

theorem toInt64_eq_ofNat {n : Int32} (positive : 1 ≤ n.toInt) :
    n.toInt64 = Int64.ofNat n.toInt.toNat := by
  have upper := n.toInt_lt
  apply toInt_inj.mp
  rw [Int32.toInt_toInt64, toInt_ofNat_of_lt (by omega)]
  omega

/-- Honest peers that answer the requests of one `requestBlocks` call are spared and
all blocks are stored, exactly when their answers arrive in the order of the requests,
with well-formed blocks whose hashes are new. -/
theorem parallelSync_iff (hasStore : r.blockStore = some store) (network : r.networkSet = true)
    (positive : 1 ≤ r.batchSize.toInt) (schedule : Schedule)
    (starts : ∀ req ∈ (r.requestBlocks schedule (height store)).2.head?,
      req.start = height store + 1)
    (accepted : ∀ b ∈ allBlocks hashBlock chain r.batchSize.toInt.toNat
        (r.requestBlocks schedule (height store)).2,
      r.validator.getD defaultBlockValidator b.height b.hash b.data = none)
    {deliveries : List Delivery}
    (answered : (deliveries.map Delivery.request).Perm
      (r.requestBlocks schedule (height store)).2) :
    FullySynced hashBlock chain r.batchSize.toInt.toNat
        (r.requestBlocks schedule (height store)).2
        (Run.after (deliver hashBlock chain r.batchSize.toInt.toNat)
          ((r.requestBlocks schedule (height store)).1, []) deliveries) ↔
      InOrder hashBlock chain r.batchSize.toInt.toNat store
        (r.requestBlocks schedule (height store)).2 deliveries := by
  have frame := SyncReactor.frame_requestBlocks r schedule (height store)
  have oneChain := consecutive_allBlocks hashBlock chain (toInt64_eq_ofNat positive)
    (spaced_requestBlocks starts)
  have batchPositive : 0 < r.batchSize.toInt.toNat := by omega
  have hasStore' := frame.blockStore.trans hasStore
  constructor
  · exact inOrder_of_fullySynced batchPositive hasStore' (frame.networkSet.trans network) oneChain
      answered
  · exact fullySynced_of_inOrder batchPositive hasStore' oneChain (frame.validator ▸ accepted)

end Memory

/-- An empty store and two peers at height five, to be asked for one block each. -/
def twoPeersReactor : SyncReactor MemoryBlockStore :=
  (((newSyncReactor (some MemoryBlockStore.empty) true true 1).setValidator
    (some acceptAllBlockValidator)).onPeerConnected "alice" 5).onPeerConnected "bob" 5

def twoPeersSchedule : Schedule := ⟨0, ["alice", "bob"], []⟩

/-- A chain whose blocks hold the last byte of their height. -/
def byteChain (h : Int64) : Bytes := [h.toInt.toNat.toUInt8]

/-- The first request goes to one peer, the second to the other. -/
def aliceFirst : List Delivery :=
  [⟨⟨"alice", 1⟩, idleSchedule⟩, ⟨⟨"bob", 2⟩, idleSchedule⟩]

theorem requestBlocks_twoPeersReactor : (twoPeersReactor.requestBlocks twoPeersSchedule 0).2 =
      aliceFirst.map request := by
  decide

/-- If the second answer overtakes the first, its peer is penalised and its block is
lost, although it is the block that was asked for. -/
theorem overtaking_answer_penalised :
    (twoPeersReactor.requestBlocks twoPeersSchedule 0).2 =
        aliceFirst.map Delivery.request ∧
      (∀ b ∈ allBlocks id byteChain 1 (aliceFirst.map Delivery.request),
        b.WellFormed ∧ acceptAllBlockValidator b.height b.hash b.data = none) ∧
      Call.addPenalty "bob" penaltyProtocolViolation .protocolViolation
          "non-contiguous blocks: expected height 1, got 2" ∈
        (Run.after (deliver id byteChain 1)
          ((twoPeersReactor.requestBlocks twoPeersSchedule 0).1, []) aliceFirst.reverse).2 ∧
      ∃ final, (Run.after (deliver id byteChain 1)
          ((twoPeersReactor.requestBlocks twoPeersSchedule 0).1, [])
          aliceFirst.reverse).1.blockStore = some final ∧
        hasBlock final 1 = true ∧ hasBlock final 2 = false := by
  refine ⟨requestBlocks_twoPeersReactor, ?_, by decide, _, rfl, by decide, by decide⟩
  simp only [PeerBlock.WellFormed]
  decide

/-- In the order of the requests both blocks are stored. -/
theorem parallelSync_aliceFirst :
    FullySynced id byteChain 1 (twoPeersReactor.requestBlocks twoPeersSchedule 0).2
      (Run.after (deliver id byteChain 1)
        ((twoPeersReactor.requestBlocks twoPeersSchedule 0).1, []) aliceFirst) := by
  have synced := @parallelSync_iff id byteChain twoPeersReactor MemoryBlockStore.empty rfl rfl
    (by decide) twoPeersSchedule (by decide) (fun _ _ => rfl) aliceFirst
    (requestBlocks_twoPeersReactor ▸ List.Perm.refl _)
  refine synced.mpr ⟨requestBlocks_twoPeersReactor.symm, ?_, by decide, by decide⟩
  simp only [PeerBlock.WellFormed]
  decide

end Blockberry.Sync
