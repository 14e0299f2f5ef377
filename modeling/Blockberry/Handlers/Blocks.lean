import Blockberry.Types.Block
import Blockberry.P2P.Calls

/-!
# The block reactor

`BlockReactor` receives blocks from the gossip stream. Its validator is optional:
a block is checked by it only if one was set.
-/

namespace Blockberry.Handlers

open BlockStore

structure BlockReactor (σ : Type) where
  blockStore : Option σ
  networkSet : Bool
  peerManagerSet : Bool
  validator : Option BlockValidator
  onBlockReceivedSet : Bool

def newBlockReactor {σ : Type} (blockStore : Option σ) (networkSet peerManagerSet : Bool) :
    BlockReactor σ where
  blockStore
  networkSet
  peerManagerSet
  validator := none
  onBlockReceivedSet := false

/-- What the peer manager, the encoder and the network answer while a block is
relayed. -/
structure RelayEnv where
  peersToSendBlock : Int64 → List PeerID
  encodeFails : Bool
  sendFails : PeerID → Bool

inductive BlockError where
  | invalidMessage
  deriving DecidableEq, Repr

namespace BlockReactor

variable {σ : Type}

def relayBlock (r : BlockReactor σ) (env : RelayEnv) (fromPeer : PeerID)
    (height : Int64) (hash blockData : Bytes) : List Call :=
  if !r.networkSet || !r.peerManagerSet then []
  else if env.encodeFails then []
  else
    ((env.peersToSendBlock height).filter (· ≠ fromPeer)).flatMap fun peerID =>
      .sendBlockData peerID height hash blockData ::
        if env.sendFails peerID then [] else [.markBlockSent peerID height]

/-- What `handleBlockData` does once the block is stored, or there is no store. -/
def acceptBlock (r : BlockReactor σ) (env : RelayEnv) (peerID : PeerID)
    (height : Int64) (hash data : Bytes) : List Call :=
  (if r.peerManagerSet then [.markBlockReceived peerID height] else []) ++
    (if r.onBlockReceivedSet then [.onBlockReceived height hash data] else []) ++
    r.relayBlock env peerID height hash data

variable {err : Option StoreError}

theorem not_saved_of_acceptBlock {r : BlockReactor σ} {env : RelayEnv}
    {peerID : PeerID} {height h : Int64} {hash data x d : Bytes} :
    Call.saveBlock h x d err ∉ r.acceptBlock env peerID height hash data := by
  simp only [acceptBlock, relayBlock, List.mem_append, not_or]
  refine ⟨⟨?_, ?_⟩, ?_⟩
  · split <;> simp
  · split <;> simp
  · split
    next => simp
    next =>
      split
      next => simp
      next =>
        intro made
        rcases List.mem_flatMap.mp made with ⟨receiver, -, sent⟩
        split at sent <;> simp at sent

variable [BlockStore σ] (hashBlock : Bytes → Bytes)

/-- The tail of `handleBlockData`, after the validator. -/
def storeAndRelay (r : BlockReactor σ) (env : RelayEnv) (peerID : PeerID)
    (height : Int64) (hash data : Bytes) : BlockReactor σ × List Call :=
  match r.blockStore with
  | none => (r, r.acceptBlock env peerID height hash data)
  | some store =>
    let (store, err) := saveBlock store height hash data
    ({ r with blockStore := some store },
      .saveBlock height hash data err ::
        if err.isSome then [] else r.acceptBlock env peerID height hash data)

/-- `handleBlockData`, on the decoded block or nothing when decoding failed. -/
def handleBlockData (r : BlockReactor σ) (env : RelayEnv) (peerID : PeerID)
    (message : Option BlockData) : BlockReactor σ × List Call × Option BlockError :=
  match message with
  | none => (r, [], some .invalidMessage)
  | some block =>
    match block.height with
    | none => (r, [], some .invalidMessage)
    | some height =>
      if block.hash.length = 0 || block.data.length = 0 then
        (r, [], some .invalidMessage)
      else if r.blockStore.any (hasBlock · height) then
        (r, if r.peerManagerSet then [.markBlockReceived peerID height] else [], none)
      else if hashBlock block.data ≠ block.hash then
        (r, if r.networkSet then
            [.addPenalty peerID penaltyInvalidBlock .invalidBlock "block hash mismatch"]
          else [], none)
      else
        match r.validator.bind fun validator =>
            validator height block.hash block.data with
        | some err =>
          (r, if r.networkSet then
              [.addPenalty peerID penaltyInvalidBlock .invalidBlock err]
            else [], none)
        | none =>
          let (r, calls) := r.storeAndRelay env peerID height block.hash block.data
          (r, calls, none)

structure Passes (r : BlockReactor σ) (store : σ) (height : Int64)
    (hash data : Bytes) : Prop where
  hash_ne : hash ≠ []
  data_ne : data ≠ []
  free : hasBlock store height = false
  hash_eq : hashBlock data = hash
  accepted : ∀ validator ∈ r.validator, validator height hash data = none

variable {hashBlock} {r : BlockReactor σ} {env : RelayEnv} {peerID : PeerID}

theorem saved_storeAndRelay_iff {height h : Int64} {hash data x d : Bytes} :
    Call.saveBlock h x d err ∈ (r.storeAndRelay env peerID height hash data).2 ↔
      h = height ∧ x = hash ∧ d = data ∧
        ∃ store, r.blockStore = some store ∧ (saveBlock store height hash data).2 = err := by
  simp only [storeAndRelay]
  cases r.blockStore with
  | none => simp [not_saved_of_acceptBlock]
  | some store =>
    simp only [List.mem_cons, Call.saveBlock.injEq, Option.some.injEq, exists_eq_left']
    constructor
    · rintro (⟨sameHeight, sameHash, sameData, sameErr⟩ | later)
      · exact ⟨sameHeight, sameHash, sameData, sameErr.symm⟩
      · split at later
        next => contradiction
        next => exact absurd later not_saved_of_acceptBlock
    · rintro ⟨sameHeight, sameHash, sameData, sameErr⟩
      exact Or.inl ⟨sameHeight, sameHash, sameData, sameErr.symm⟩

theorem handleBlockData_of_passes {store : σ} {h : Int64} {hash data : Bytes}
    (hasStore : r.blockStore = some store) (passes : r.Passes hashBlock store h hash data) :
    r.handleBlockData hashBlock env peerID (some ⟨some h, hash, data⟩) =
      ((r.storeAndRelay env peerID h hash data).1,
        (r.storeAndRelay env peerID h hash data).2, none) := by
  have noObjection : (r.validator.bind fun validator => validator h hash data) = none := by
    cases configured : r.validator with
    | none => rfl
    | some validator => exact passes.accepted validator configured
  simp [handleBlockData, passes.hash_ne, passes.data_ne, hasStore, passes.free,
    passes.hash_eq, noObjection]

/-- The calls of a message that goes no further than the checks. -/
def Refusal (r : BlockReactor σ) : Call → Prop
  | .markBlockReceived _ height => r.blockStore.any (hasBlock · height) = true
  | .addPenalty _ _ _ _ => True
  | _ => False

/-- Everything a message can do: it goes no further than the checks, or its block passes
them and goes to the store. -/
theorem handleBlockData_cases (hashBlock : Bytes → Bytes) (r : BlockReactor σ)
    (env : RelayEnv) (peerID : PeerID) (message : Option BlockData) :
    ((r.handleBlockData hashBlock env peerID message).1 = r ∧
        ∀ call ∈ (r.handleBlockData hashBlock env peerID message).2.1, r.Refusal call) ∨
      ∃ h hash data, message = some ⟨some h, hash, data⟩ ∧
        (∀ store, r.blockStore = some store → r.Passes hashBlock store h hash data) ∧
        r.handleBlockData hashBlock env peerID message =
          ((r.storeAndRelay env peerID h hash data).1,
            (r.storeAndRelay env peerID h hash data).2, none) := by
  simp only [handleBlockData]
  split
  next => exact .inl ⟨rfl, by simp⟩
  next block =>
    split
    next => exact .inl ⟨rfl, by simp⟩
    next height hasHeight =>
      split
      next => exact .inl ⟨rfl, by simp⟩
      next wellFormed =>
        split
        next stored => exact .inl ⟨rfl, by split <;> simp [Refusal, stored]⟩
        next free =>
          split
          next => exact .inl ⟨rfl, by split <;> simp [Refusal]⟩
          next sameHash =>
            split
            next => exact .inl ⟨rfl, by split <;> simp [Refusal]⟩
            next noObjection =>
              refine .inr ⟨height, block.hash, block.data, by rw [← hasHeight], ?_, rfl⟩
              intro store hasStore
              simp only [Bool.or_eq_true, decide_eq_true_eq, not_or,
                List.length_eq_zero_iff] at wellFormed
              refine ⟨wellFormed.1, wellFormed.2, by simpa [hasStore] using free,
                not_not.mp sameHash, ?_⟩
              intro validator configured
              simpa [Option.mem_def.mp configured] using noObjection

theorem saved_handleBlockData_iff {message : Option BlockData} {h : Int64} {hash data : Bytes} :
    Call.saveBlock h hash data err ∈ (r.handleBlockData hashBlock env peerID message).2.1 ↔
      message = some ⟨some h, hash, data⟩ ∧
        ∃ store, r.blockStore = some store ∧ r.Passes hashBlock store h hash data ∧
          (saveBlock store h hash data).2 = err := by
  constructor
  · intro saved
    rcases handleBlockData_cases hashBlock r env peerID message with
      ⟨-, refused⟩ | ⟨h', hash', data', rfl, passes, outcome⟩
    · exact (refused _ saved).elim
    · rw [outcome] at saved
      rcases saved_storeAndRelay_iff.mp saved with ⟨rfl, rfl, rfl, store, hasStore, stored⟩
      exact ⟨rfl, store, hasStore, passes store hasStore, stored⟩
  · rintro ⟨rfl, store, hasStore, passes, stored⟩
    rw [handleBlockData_of_passes hasStore passes]
    exact saved_storeAndRelay_iff.mpr ⟨rfl, rfl, rfl, store, hasStore, stored⟩

/-- A block that passes is handed to the store, and any other message changes nothing. -/
theorem handleBlockData_store (hashBlock : Bytes → Bytes) {r : BlockReactor σ} {store : σ}
    (hasStore : r.blockStore = some store) (env : RelayEnv) (peerID : PeerID)
    (message : Option BlockData) :
    (∃ h hash data, message = some ⟨some h, hash, data⟩ ∧ r.Passes hashBlock store h hash data ∧
        (r.handleBlockData hashBlock env peerID message).1.blockStore =
          some (saveBlock store h hash data).1) ∨
      (∀ h hash data, message = some ⟨some h, hash, data⟩ → ¬r.Passes hashBlock store h hash data) ∧
        (r.handleBlockData hashBlock env peerID message).1 = r := by
  rcases handleBlockData_cases hashBlock r env peerID message with
    ⟨unchanged, refused⟩ | ⟨h, hash, data, rfl, passes, outcome⟩
  · refine .inr ⟨?_, unchanged⟩
    intro h hash data isMessage passes
    exact refused _ (saved_handleBlockData_iff.mpr ⟨isMessage, store, hasStore, passes, rfl⟩)
  · refine .inl ⟨h, hash, data, rfl, passes store hasStore, ?_⟩
    rw [outcome, storeAndRelay, hasStore]

theorem handleBlockData_frame (hashBlock : Bytes → Bytes) (r : BlockReactor σ)
    (env : RelayEnv) (peerID : PeerID) (message : Option BlockData) :
    ∃ store, (r.handleBlockData hashBlock env peerID message).1 =
      { r with blockStore := store } := by
  simp only [handleBlockData, storeAndRelay]
  repeat' split
  all_goals exact ⟨_, rfl⟩

end BlockReactor

end Blockberry.Handlers
