import Blockberry.Lib.Run
import Blockberry.Sync.Contiguity

/-!
# Honest answers

One call of `requestBlocks` sends requests for consecutive ranges to several peers,
and honest peers answer with the blocks of one chain. If these continue the store and
the answers come in the order of the requests, all blocks are stored and nobody is
penalised.
-/

namespace Blockberry.Sync

open BlockStore LawfulBlockStore Machine PeerBlock SyncReactor List

section Answers

variable (hashBlock : Bytes → Bytes) (chain : Int64 → Bytes)

/-- The block of the chain at a height, with its right hash. -/
def chainBlock (h : Int64) : PeerBlock := ⟨h, hashBlock (chain h), chain h⟩

/-- The blocks of the chain from a height on, as many as were asked for. -/
def answer : Nat → Int64 → List PeerBlock
  | 0, _ => []
  | n + 1, start => chainBlock hashBlock chain start :: answer n (start + 1)

/-- A request that is answered, and the choices of the runtime while the answer is
handled. -/
structure Delivery where
  request : BlockRequest
  schedule : Schedule

/-- The reactor and all calls so far, after one more answer. -/
def deliver {σ : Type} [BlockStore σ] (batch : Nat) (state : SyncReactor σ × List Call)
    (delivery : Delivery) : SyncReactor σ × List Call :=
  let outcome := state.1.handleBlocksResponse hashBlock delivery.schedule
    delivery.request.peerID
    (some ((answer hashBlock chain batch delivery.request.start).map toBlockData))
  (outcome.reactor, state.2 ++ outcome.calls)

def allBlocks (batch : Nat) (requests : List BlockRequest) : List PeerBlock :=
  requests.flatMap fun req => answer hashBlock chain batch req.start

end Answers

variable {hashBlock : Bytes → Bytes} {chain : Int64 → Bytes}

theorem length_answer (n : Nat) (start : Int64) : (answer hashBlock chain n start).length = n := by
  induction n generalizing start with
  | zero => rfl
  | succ n ih => simp [answer, ih]

theorem consecutive_answer (n : Nat) (start : Int64) :
    Consecutive start (answer hashBlock chain n start) := by
  induction n generalizing start with
  | zero => trivial
  | succ n ih => exact ⟨rfl, ih (start + 1)⟩

theorem eq_chainBlock_of_mem_answer {n : Nat} {start : Int64} {b : PeerBlock}
    (member : b ∈ answer hashBlock chain n start) :
    b = chainBlock hashBlock chain b.height := by
  induction n generalizing start with
  | zero => contradiction
  | succ n ih =>
    rcases mem_cons.mp member with rfl | later
    · rfl
    · exact ih later

theorem allBlocks_cons (batch : Nat) (req : BlockRequest) (rest : List BlockRequest) :
    allBlocks hashBlock chain batch (req :: rest) =
      answer hashBlock chain batch req.start ++ allBlocks hashBlock chain batch rest := rfl

theorem answer_append (n m : Nat) (start : Int64) :
    answer hashBlock chain n start ++ answer hashBlock chain m (start + Int64.ofNat n) =
      answer hashBlock chain (n + m) start := by
  induction n generalizing start with
  | zero => simp [answer]
  | succ n ih =>
    have shift : start + Int64.ofNat (n + 1) = start + 1 + Int64.ofNat n := by
      rw [Int64.ofNat_add, Int64.add_comm (Int64.ofNat n), ← Int64.add_assoc]
      rfl
    rw [shift, Nat.add_right_comm, answer, answer, cons_append, ih]

/-! ## Consecutive requests -/

/-- The requests start at `first`, `first + step` and so on. -/
def Spaced (step : Int64) : Int64 → List BlockRequest → Prop
  | _, [] => True
  | first, req :: rest => req.start = first ∧ Spaced step (first + step) rest

theorem spaced_issueRequests {σ : Type} (now : Int) (available : Nat) (peers : List PeerID)
    (r : SyncReactor σ) :
    Spaced r.batchSize.toInt64 r.nextRequestHeight (issueRequests now available peers r).2 := by
  induction available generalizing peers r with
  | zero => trivial
  | succ available ih =>
    simp only [issueRequests]
    split
    next => trivial
    refine ⟨rfl, ?_⟩
    have next : (r.issueRequest now (nextIdlePeer r.pendingRequests peers).1).nextRequestHeight =
          r.nextRequestHeight + r.batchSize.toInt64 := Int64.sub_add_cancel _ _
    rw [← next]
    exact ih _ (r.issueRequest now _)

theorem spaced_requestBlocks {σ : Type} {r : SyncReactor σ} {schedule : Schedule}
    {since first : Int64}
    (starts : ∀ req ∈ (r.requestBlocks schedule since).2.head?, req.start = first) :
    Spaced r.batchSize.toInt64 first (r.requestBlocks schedule since).2 := by
  have frame := (frame_cleanupTimedOutRequestsLocked r schedule).trans (frame_raiseCursor _ since)
  simp only [requestBlocks] at starts ⊢
  generalize (r.cleanupTimedOutRequestsLocked schedule).raiseCursor since = raised at *
  have spaced : ∃ next, Spaced r.batchSize.toInt64 next (raised.prepareRequests schedule).2 := by
    simp only [prepareRequests]
    split
    next => exact ⟨0, trivial⟩
    next =>
      split
      next => exact ⟨0, trivial⟩
      next => exact ⟨_, frame.batchSize ▸ spaced_issueRequests _ _ _ raised⟩
  rcases spaced with ⟨next, spaced⟩
  cases requests : (raised.prepareRequests schedule).2 with
  | nil => trivial
  | cons req rest =>
    rw [requests] at spaced starts
    have same : next = first := spaced.1.symm.trans (starts req rfl)
    rw [← same]
    exact spaced

variable (hashBlock chain) in
theorem consecutive_allBlocks {batch : Nat} {step : Int64} (stepEq : step = Int64.ofNat batch)
    {first : Int64} {requests : List BlockRequest} (spaced : Spaced step first requests) :
    allBlocks hashBlock chain batch requests =
      answer hashBlock chain (requests.length * batch) first := by
  induction requests generalizing first with
  | nil => simp [allBlocks, answer]
  | cons req rest ih =>
    rcases spaced with ⟨rfl, spaced⟩
    have later := ih spaced
    simp only [allBlocks, flatMap_cons] at later ⊢
    rw [later, stepEq, answer_append, length_cons, Nat.succ_mul, Nat.add_comm]

/-! ## Storing a stretch -/

/-- The heights of ascending blocks, counted from the height below the first. -/
theorem Ascending.height_eq {blocks : List PeerBlock} (ascending : Ascending blocks) {base : ℤ}
    (first : ∀ b ∈ blocks.head?, b.height.toInt = base + 1) {i : Nat} {b : PeerBlock}
    (at_ : blocks[i]? = some b) : b.height.toInt = base + 1 + i := by
  induction blocks generalizing base i with
  | nil => contradiction
  | cons c rest ih =>
    have firstEq := first c rfl
    cases i with
    | zero =>
      cases at_
      simpa using firstEq
    | succ i =>
      have next : ∀ d ∈ rest.head?, d.height.toInt = base + 1 + 1 := by
        intro d isHead
        rw [(isChain_cons.mp ascending).1 d isHead, firstEq]
      have later := ih ascending.tail next at_
      push_cast
      omega

theorem Ascending.bounds {blocks : List PeerBlock} (ascending : Ascending blocks) {base : ℤ}
    (first : ∀ b ∈ blocks.head?, b.height.toInt = base + 1) {b : PeerBlock}
    (member : b ∈ blocks) :
    base < b.height.toInt ∧ b.height.toInt ≤ base + blocks.length := by
  rcases mem_iff_getElem?.mp member with ⟨i, at_⟩
  have heightEq := ascending.height_eq first at_
  have inBounds := (List.getElem?_eq_some_iff.mp at_).1
  omega

theorem Ascending.head_append {first second : List PeerBlock}
    (ascending : Ascending (first ++ second)) {base : ℤ}
    (starts : ∀ b ∈ (first ++ second).head?, b.height.toInt = base + 1) :
    ∀ b ∈ second.head?, b.height.toInt = base + first.length + 1 := by
  intro b isHead
  have at_ : (first ++ second)[first.length]? = some b := by
    rw [List.getElem?_append_right le_rfl, Nat.sub_self, ← List.head?_eq_getElem?]
    exact isHead
  have heightEq := ascending.height_eq starts at_
  omega

section Storing

variable {σ : Type} [LawfulBlockStore σ] {r : SyncReactor σ} {peerID : PeerID} {store : σ}
  {blocks : List PeerBlock}

theorem loadBlock_storeBlocks {h : Int64} {entry : Bytes × Bytes}
    (found : loadBlock store h = some entry) :
    loadBlock (r.storeBlocks hashBlock peerID store blocks).1 h = some entry := by
  refine storeBlocks_preserves (loadBlock · h = some entry) ?_ found
  intro store b _ acceptable found
  have different : h ≠ b.height := by
    rintro rfl
    have free := acceptable.free
    rw [hasBlock_eq, found] at free
    contradiction
  rw [loadBlock_saveBlock store _ _ _ acceptable.saved, if_neg different]
  exact found

/-- The first block of a stretch is stored, and the others are a stretch for the store
with it. -/
theorem Stretch.uncons {b : PeerBlock} {rest : List PeerBlock} (ascending : Ascending (b :: rest))
    (stretch : Stretch hashBlock r.validator store (b :: rest) []) :
    Acceptable hashBlock r.validator store b ∧
      Stretch hashBlock r.validator (saveBlock store b.height b.hash b.data).1 rest [] := by
  have acceptable := stretch.acceptable b mem_cons_self
  have withoutRest : Ascending (b :: (rest ++ [])) := by rwa [append_nil]
  exact ⟨acceptable, (Stretch.cons acceptable withoutRest).mp stretch⟩

variable (ascending : Ascending blocks)

include ascending

variable (stretch : Stretch hashBlock r.validator store blocks [])

include stretch

theorem loadBlock_of_stretch :
    ∀ b ∈ blocks, loadBlock (r.storeBlocks hashBlock peerID store blocks).1 b.height =
      some (b.hash, b.data) := by
  induction blocks generalizing store with
  | nil => simp
  | cons b rest ih =>
    rcases stretch.uncons ascending with ⟨acceptable, later⟩
    rw [storeBlocks_cons_store, storeBlock_of_acceptable acceptable]
    refine forall_mem_cons.mpr ⟨?_, ih ascending.tail later⟩
    apply loadBlock_storeBlocks
    rw [loadBlock_saveBlock store _ _ _ acceptable.saved, if_pos rfl]

theorem hashKnown_of_stretch (hash : Bytes) :
    hashKnown (r.storeBlocks hashBlock peerID store blocks).1 hash = true ↔
      hashKnown store hash = true ∨ hash ∈ blocks.map PeerBlock.hash := by
  induction blocks generalizing store with
  | nil => simp
  | cons b rest ih =>
    rcases stretch.uncons ascending with ⟨acceptable, later⟩
    rw [storeBlocks_cons_store, storeBlock_of_acceptable acceptable, ih ascending.tail later,
      hashKnown_saveBlock store _ _ _ acceptable.saved, Bool.or_eq_true, beq_iff_eq,
      map_cons, mem_cons]
    tauto

theorem height_of_stretch (next : ∀ b ∈ blocks.head?, b.height.toInt = (height store).toInt + 1) :
    (height (r.storeBlocks hashBlock peerID store blocks).1).toInt =
      (height store).toInt + blocks.length := by
  induction blocks generalizing store with
  | nil => simp
  | cons b rest ih =>
    rcases stretch.uncons ascending with ⟨acceptable, later⟩
    have above : b.height > height store := by
      have bEq := next b rfl
      exact Int64.lt_iff_toInt_lt.mpr (by omega)
    have raised : height (saveBlock store b.height b.hash b.data).1 = b.height := by
      rw [height_saveBlock store _ _ _ acceptable.saved, if_pos above]
    have nextRest : ∀ c ∈ rest.head?, c.height.toInt =
        (height (saveBlock store b.height b.hash b.data).1).toInt + 1 := by
      intro c isHead
      rw [raised, (isChain_cons.mp ascending).1 c isHead]
    rw [storeBlocks_cons_store, storeBlock_of_acceptable acceptable,
      ih ascending.tail later nextRest, raised,
      next b rfl, length_cons]
    push_cast
    omega

theorem no_penalty_of_stretch {who : PeerID} {points : Int64}
    {reason : PenaltyReason} {message : String} :
    Call.addPenalty who points reason message ∉
      (r.storeBlocks hashBlock peerID store blocks).2 := by
  induction blocks generalizing store with
  | nil => simp
  | cons b rest ih =>
    rcases stretch.uncons ascending with ⟨acceptable, later⟩
    rw [storeBlocks_cons_calls, storeBlock_of_acceptable acceptable, mem_append, not_or]
    refine ⟨?_, ih ascending.tail later⟩
    simp only [mem_cons, reduceCtorEq, false_or]
    split <;> simp

omit stretch

omit ascending

theorem height_storeBlocks_le {bound : ℤ} (nonneg : 0 ≤ bound)
    (stored : (height store).toInt ≤ bound) (blocksLe : ∀ b ∈ blocks, b.height.toInt ≤ bound) :
    (height (r.storeBlocks hashBlock peerID store blocks).1).toInt ≤ bound := by
  rcases height_stored (r.storeBlocks hashBlock peerID store blocks).1 with zero | isStored
  · rw [zero]
    exact nonneg
  · rcases heights_storeBlocks_subset store blocks (mem_heights.mpr isStored) with
      earlier | ⟨b, member, same⟩
    · have below := Int64.le_iff_toInt_le.mp (le_height store _ (mem_heights.mp earlier))
      omega
    · rw [← same]
      exact blocksLe b member

end Storing

/-! ## Answers in order -/

variable (hashBlock chain) in
/-- Blocks of the chain that the store will take one after the other. -/
structure Ready (validator : Option BlockValidator) (store : MemoryBlockStore)
    (blocks : List PeerBlock) : Prop where
  onChain : ∀ b ∈ blocks, b = chainBlock hashBlock chain b.height
  wellFormed : ∀ b ∈ blocks, b.WellFormed
  accepted : ∀ b ∈ blocks,
    validator.getD defaultBlockValidator b.height b.hash b.data = none
  ascending : Ascending blocks
  next : ∀ b ∈ blocks.head?, b.height.toInt = (height store).toInt + 1
  distinct : (blocks.map PeerBlock.hash).Nodup
  fresh : ∀ b ∈ blocks, hashKnown store b.hash = false

section Memory

variable {r : SyncReactor MemoryBlockStore} {store : MemoryBlockStore} {peerID : PeerID}
  {blocks first second : List PeerBlock} {batch : Nat} {calls : List Call}

theorem Ready.stretch (ready : Ready hashBlock chain r.validator store blocks) :
    Stretch hashBlock r.validator store blocks [] where
  acceptable := by
    intro b member
    have above := (ready.ascending.bounds ready.next member).1
    refine ⟨?_, ?_, ready.accepted b member, ready.fresh b member, rfl⟩
    · by_contra stored
      rw [Bool.not_eq_false] at stored
      exact absurd (Int64.le_iff_toInt_le.mp (le_height store _ stored)) (not_le.mpr above)
    · rw [ready.onChain b member]
      rfl
  distinct := ready.distinct
  repeats := by simp

theorem Ready.left (ready : Ready hashBlock chain r.validator store (first ++ second)) :
    Ready hashBlock chain r.validator store first where
  onChain b member := ready.onChain b (mem_append_left second member)
  wellFormed b member := ready.wellFormed b (mem_append_left second member)
  accepted b member := ready.accepted b (mem_append_left second member)
  ascending := ready.ascending.left
  next b isHead := ready.next b (mem_head?_append_of_mem_head? isHead)
  distinct := by
    have distinct := ready.distinct
    rw [map_append] at distinct
    exact distinct.of_append_left
  fresh b member := ready.fresh b (mem_append_left second member)

theorem Ready.right (ready : Ready hashBlock chain r.validator store (first ++ second)) :
    Ready hashBlock chain r.validator (r.storeBlocks hashBlock peerID store first).1 second where
  onChain b member := ready.onChain b (mem_append_right first member)
  wellFormed b member := ready.wellFormed b (mem_append_right first member)
  accepted b member := ready.accepted b (mem_append_right first member)
  ascending := ready.ascending.right
  next b isHead := by
    rw [height_of_stretch ready.left.ascending ready.left.stretch ready.left.next]
    exact ready.ascending.head_append ready.next b isHead
  distinct := by
    have distinct := ready.distinct
    rw [map_append] at distinct
    exact distinct.of_append_right
  fresh b member := by
    have distinct := ready.distinct
    rw [map_append] at distinct
    by_contra known
    rw [Bool.not_eq_false, hashKnown_of_stretch ready.left.ascending ready.left.stretch] at known
    rcases known with earlier | stored
    · rw [ready.fresh b (mem_append_right first member)] at earlier
      contradiction
    · exact disjoint_of_nodup_append distinct stored (mem_map_of_mem member)

theorem Ready.passesChecks (ready : Ready hashBlock chain r.validator store blocks)
    {start : Int64} (consecutive : Consecutive start blocks) (nonempty : blocks ≠ []) :
    PassesChecks store blocks := by
  cases blocks with
  | nil => contradiction
  | cons b rest =>
    have startEq : b.height = start := consecutive.1
    have bEq := ready.next b rfl
    have inRange : InRange ((height store).toInt + (1 : Int64).toInt) := by
      have one : (1 : Int64).toInt = 1 := rfl
      rw [one, ← bEq]
      exact inRange_toInt b.height
    have expected : (height store + 1).toInt = b.height.toInt := by
      rw [toInt_add_of_inRange inRange, bEq]
      rfl
    apply passesChecks_cons_iff.mpr
    refine ⟨ready.wellFormed, ?_, startEq ▸ consecutive⟩
    exact Int64.le_iff_toInt_le.mpr (by omega)

theorem answer_ne_nil (positive : 0 < batch) (start : Int64) :
    answer hashBlock chain batch start ≠ [] := by
  apply ne_nil_of_length_pos
  rw [length_answer]
  exact positive

theorem deliver_of_checked (positive : 0 < batch) (hasStore : r.blockStore = some store)
    (calls : List Call) (d : Delivery)
    (passed : PassesChecks store (answer hashBlock chain batch d.request.start)) :
    let stored := (r.clearPending d.request.peerID).storeBlocks hashBlock d.request.peerID store
      (answer hashBlock chain batch d.request.start)
    ∃ r' requested,
      deliver hashBlock chain batch (r, calls) d = (r', calls ++ (stored.2 ++ requested)) ∧
        r'.blockStore = some stored.1 ∧ r'.validator = r.validator ∧
        r'.networkSet = r.networkSet ∧
        ∀ who points reason message, Call.addPenalty who points reason message ∉ requested := by
  intro stored
  have nonempty : (answer hashBlock chain batch d.request.start).map toBlockData ≠ [] := by
    simpa using answer_ne_nil positive d.request.start
  have outcome := handleBlocksResponse_of_checked hashBlock hasStore nonempty passed
    d.schedule d.request.peerID
  have frame := frame_checkSync
    { r.clearPending d.request.peerID with blockStore := some stored.1 } d.schedule
  refine ⟨_, _, congrArg (fun o => (o.reactor, calls ++ o.calls)) outcome, frame.blockStore,
    frame.validator, frame.networkSet, ?_⟩
  intro who points reason message made
  rcases calls_checkSync made with ⟨peerID, since, other⟩ | other <;> contradiction

theorem stored_of_ready (positive : 0 < batch) {deliveries : List Delivery}
    (hasStore : r.blockStore = some store)
    (ready : Ready hashBlock chain r.validator store
      (allBlocks hashBlock chain batch (deliveries.map Delivery.request))) :
    ∃ final, (Run.after (deliver hashBlock chain batch) (r, calls) deliveries).1.blockStore =
        some final ∧
      (∀ h entry, loadBlock store h = some entry → loadBlock final h = some entry) ∧
      (∀ b ∈ allBlocks hashBlock chain batch (deliveries.map Delivery.request),
        loadBlock final b.height = some (b.hash, b.data)) ∧
      ∀ who points reason message, Call.addPenalty who points reason message ∈
          (Run.after (deliver hashBlock chain batch) (r, calls) deliveries).2 →
        Call.addPenalty who points reason message ∈ calls := by
  induction deliveries generalizing r store calls with
  | nil => exact ⟨store, hasStore, fun _ _ found => found, by simp [allBlocks], by simp⟩
  | cons d deliveries ih =>
    have passed := ready.left.passesChecks (consecutive_answer batch d.request.start)
      (answer_ne_nil positive d.request.start)
    have stretch : Stretch hashBlock (r.clearPending d.request.peerID).validator store
      (answer hashBlock chain batch d.request.start) [] := ready.left.stretch
    rcases deliver_of_checked positive hasStore calls d passed with
      ⟨r', requested, delivered, hasStore', sameValidator, -, noneRequested⟩
    have later : Ready hashBlock chain r'.validator
        ((r.clearPending d.request.peerID).storeBlocks hashBlock d.request.peerID store
          (answer hashBlock chain batch d.request.start)).1
        (allBlocks hashBlock chain batch (deliveries.map Delivery.request)) := by
      rw [sameValidator]
      exact @Ready.right _ _ (r.clearPending d.request.peerID) _ _ _ _ ready
    rw [Run.after_cons, delivered]
    rcases ih hasStore' later with ⟨final, isFinal, kept, stored, noPenalty⟩
    refine ⟨final, isFinal, ?_, ?_, ?_⟩
    · intro h entry found
      exact kept h entry (loadBlock_storeBlocks found)
    · intro b member
      rcases mem_append.mp member with now | afterwards
      · exact kept _ _ (loadBlock_of_stretch ready.left.ascending stretch b now)
      · exact stored b afterwards
    · intro who points reason message made
      have earlier := noPenalty who points reason message made
      rw [mem_append, mem_append] at earlier
      rcases earlier with earlier | now | now
      · exact earlier
      · exact absurd now (no_penalty_of_stretch ready.left.ascending stretch)
      · exact absurd now (noneRequested who points reason message)

end Memory

end Blockberry.Sync
