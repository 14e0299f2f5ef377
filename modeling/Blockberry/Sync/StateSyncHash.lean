import Blockberry.StateStore.SnapshotContents
import Blockberry.Sync.StateSyncSafety

/-!
# What a completed state sync has imported

A snapshot is named by its hash, which covers the height and all chunks. The reactor compares the
hash of a chunk only with the hash that came with it, and nobody recomputes the hash of the
snapshot. So one dishonest peer is enough to complete a sync with other contents.
-/

namespace Blockberry.StateSync

open StateStore List FlatTree

variable {sha256 : Bytes → Bytes} {source : SnapshotOffer → List Bytes} {sys : System}
  {log : List StateSyncCall} {event : Event}

/-- A snapshot has been imported, and what was imported under the selected offer has the
hash of the offer. -/
structure ImportMatches (sha256 : Bytes → Bytes) (sys : System) (log : List StateSyncCall) :
    Prop where
  imported : ∃ snapshot chunks, .importSnapshot snapshot chunks ∈ log
  hash_eq : ∀ snapshot chunks, .importSnapshot snapshot chunks ∈ log →
    ∃ offer, sys.reactor.selectedOffer = some offer ∧ snapshot = snapshotOf offer ∧
      snapshotHash sha256 offer.height chunks = offer.hash

/-- The chunks of the snapshot that the offer names. -/
structure Describes (sha256 : Bytes → Bytes) (offer : SnapshotOffer) (chunks : List Bytes) :
    Prop where
  count : (chunks.length : Int) = offer.chunks
  hash_eq : snapshotHash sha256 offer.height chunks = offer.hash

def FromSource (sha256 : Bytes → Bytes) (source : SnapshotOffer → List Bytes) (sys : System)
    (event : Event) : Prop :=
  ∀ offer, sys.reactor.selectedOffer = some offer → sys.reactor.state = .downloading →
    Describes sha256 offer (source offer) ∧
    ∀ idx data, event.accepts sha256 sys.reactor idx data →
      sys.reactor.chunkStatus[idx]? = some false → (source offer)[idx]? = some data

/-- The chunks received so far are those of the source, and so is everything that has
been imported. -/
structure Faithful (sha256 : Bytes → Bytes) (source : SnapshotOffer → List Bytes)
    (sys : System) (log : List StateSyncCall) : Prop where
  stored : ∀ offer, sys.reactor.selectedOffer = some offer →
    ∀ idx : Nat, sys.reactor.chunkStatus[idx]? = some true →
      sys.reactor.chunks[idx]? = (source offer)[idx]?
  hash_eq : ∀ snapshot chunks, .importSnapshot snapshot chunks ∈ log →
    ∃ offer, sys.reactor.selectedOffer = some offer ∧ snapshot = snapshotOf offer ∧
      snapshotHash sha256 offer.height chunks = offer.hash
  applied : sys.reactor.state = .applying ∨ sys.reactor.state = .complete →
    ∃ snapshot chunks, .importSnapshot snapshot chunks ∈ log

theorem Faithful.stored_step (valid : Valid sys) (faithful : Faithful sha256 source sys log)
    (fromSource : FromSource sha256 source sys event) {offer : SnapshotOffer}
    (selected : (step sha256 sys event).reactor.selectedOffer = some offer) {idx : Nat}
    (received : (step sha256 sys event).reactor.chunkStatus[idx]? = some true) :
    (step sha256 sys event).reactor.chunks[idx]? = (source offer)[idx]? := by
  cases valid.advance sha256 event with
  | stays same =>
    rw [same.selectedOffer] at selected
    rw [same.chunkStatus] at received
    rw [same.chunks]
    exact faithful.stored offer selected idx received
  | selects other _ _ _ _ chunkStatus =>
    rw [chunkStatus, getElem?_replicate] at received
    split at received
    next => cases received
    next => cases received
  | stores stored data isAccepted downloading missing selectedOffer chunks chunkStatus =>
    rw [selectedOffer] at selected
    rw [chunkStatus] at received
    rw [chunks]
    by_cases isStored : stored = idx
    · subst isStored
      have inside : stored < sys.reactor.chunks.length := by
        obtain ⟨chunksLength, statusLength⟩ := valid.layout.lengths offer selected
        obtain ⟨inStatus, -⟩ := List.getElem?_eq_some_iff.mp missing
        omega
      rw [getElem?_set_self inside]
      exact ((fromSource offer selected downloading).2 stored data isAccepted missing).symm
    · rw [getElem?_set_ne isStored] at received ⊢
      exact faithful.stored offer selected idx received
  | ends selectedOffer chunks chunkStatus =>
    rw [selectedOffer] at selected
    rw [chunkStatus] at received
    rw [chunks]
    exact faithful.stored offer selected idx received

theorem Faithful.chunks_eq (valid : Valid sys) (faithful : Faithful sha256 source sys log)
    {offer : SnapshotOffer} (selected : sys.reactor.selectedOffer = some offer)
    (allReceived : ∀ status ∈ sys.reactor.chunkStatus, status = true)
    (count : ((source offer).length : Int) = offer.chunks) :
    sys.reactor.chunks = source offer := by
  obtain ⟨chunksLength, statusLength⟩ := valid.layout.lengths offer selected
  apply ext_getElem?
  intro idx
  rcases lt_or_ge idx sys.reactor.chunkStatus.length with inside | outside
  · have received : sys.reactor.chunkStatus[idx]? = some true := by
      rw [getElem?_eq_getElem inside, allReceived _ (getElem_mem inside)]
    exact faithful.stored offer selected idx received
  · rw [getElem?_eq_none (by omega), getElem?_eq_none (by omega)]

theorem Faithful.step (valid : Valid sys) (faithful : Faithful sha256 source sys log)
    (fromSource : FromSource sha256 source sys event) :
    Faithful sha256 source (step sha256 sys event) (log ++ emit sha256 sys event) := by
  constructor
  · intro offer selected idx received
    exact faithful.stored_step valid fromSource selected received
  · intro snapshot chunks called
    rcases mem_append.mp called with earlier | now
    · obtain ⟨offer, selected, isSnapshot, hash_eq⟩ := faithful.hash_eq snapshot chunks earlier
      exact ⟨offer, (valid.advance sha256 event).selectedOffer_eq selected, isSnapshot, hash_eq⟩
    · have ready := valid.importReady now
      obtain ⟨offer, selected, isSnapshot⟩ := ready.selected
      have describes := (fromSource offer selected ready.downloading).1
      refine ⟨offer, (valid.advance sha256 event).selectedOffer_eq selected, isSnapshot, ?_⟩
      rw [ready.chunks_eq, faithful.chunks_eq valid selected ready.allReceived describes.count]
      exact describes.hash_eq
  · intro reached
    have started : sys.reactor.state = .applying ∨ sys.reactor.state = .complete ∨
        ∃ snapshot chunks, .importSnapshot snapshot chunks ∈ emit sha256 sys event := by
      rcases reached with applying | complete
      · rcases valid.applied applying with before | called
        · exact .inl before
        · exact .inr (.inr called)
      · rcases (valid.advance sha256 event).state_eq_or_moves valid.layout with
          same | moves
        · exact .inr (.inl (same.symm.trans complete))
        · rw [complete] at moves
          exact .inl moves.eq_applying
    rcases started with applying | complete | ⟨snapshot, chunks, called⟩
    · obtain ⟨snapshot, chunks, called⟩ := faithful.applied (.inl applying)
      exact ⟨snapshot, chunks, mem_append_left _ called⟩
    · obtain ⟨snapshot, chunks, called⟩ := faithful.applied (.inr complete)
      exact ⟨snapshot, chunks, mem_append_left _ called⟩
    · exact ⟨snapshot, chunks, mem_append_right _ called⟩

section Started

variable (networkSet peerManagerSet onCompleteSet onFailedSet : Bool) (trustHeight : Int64)
  (trustHash : Bytes) (chunkRequestTimeout maxChunkRetries : Int)

/-- A sync that completes has imported the snapshot named by the selected offer, if the
chunks that were accepted are those of that snapshot. -/
theorem completed_import_matches (sha256 : Bytes → Bytes) (source : SnapshotOffer → List Bytes)
    (events : List Event)
    (every : Run.EveryStep (step sha256) (FromSource sha256 source)
      (startedNew networkSet peerManagerSet onCompleteSet onFailedSet trustHeight trustHash
        chunkRequestTimeout maxChunkRetries) events)
    (complete : (Run.after (step sha256)
      (startedNew networkSet peerManagerSet onCompleteSet onFailedSet trustHeight trustHash
        chunkRequestTimeout maxChunkRetries) events).reactor.state = .complete) :
    ImportMatches sha256
      (Run.after (step sha256)
        (startedNew networkSet peerManagerSet onCompleteSet onFailedSet trustHeight trustHash
          chunkRequestTimeout maxChunkRetries) events)
      (Run.trace (step sha256) (emit sha256)
        (startedNew networkSet peerManagerSet onCompleteSet onFailedSet trustHeight trustHash
          chunkRequestTimeout maxChunkRetries) events) := by
  let kept (sys : System) (log : List StateSyncCall) : Prop :=
    Valid sys ∧ Faithful sha256 source sys log
  have initial : kept _ [] :=
    ⟨valid_startedNew networkSet peerManagerSet onCompleteSet onFailedSet trustHeight trustHash
      chunkRequestTimeout maxChunkRetries, by
        constructor
        · intro offer selected
          cases selected
        · intro snapshot chunks called
          cases called
        · rintro (applying | complete)
          · cases applying
          · cases complete⟩
  have keptStep (sys : System) (log : List StateSyncCall) (event : Event) (held : kept sys log)
      (fromSource : FromSource sha256 source sys event) :
      kept (step sha256 sys event) (log ++ emit sha256 sys event) :=
    ⟨held.1.step event, held.2.step held.1 fromSource⟩
  obtain ⟨-, faithful⟩ := every.invariant_trace initial keptStep
  exact ⟨faithful.applied (.inr complete), faithful.hash_eq⟩

end Started

theorem fromSource_of_unselected (unselected : sys.reactor.selectedOffer = none) :
    FromSource sha256 source sys event := by
  intro offer selected
  cases unselected.symm.trans selected

theorem fromSource_of_selected {offer : SnapshotOffer}
    (selected : sys.reactor.selectedOffer = some offer)
    (describes : Describes sha256 offer (source offer))
    (accepted : ∀ idx data, event.accepts sha256 sys.reactor idx data →
      (source offer)[idx]? = some data) : FromSource sha256 source sys event := by
  intro other isOther _
  cases selected.symm.trans isOther
  exact ⟨describes, fun idx data isAccepted _ => accepted idx data isAccepted⟩

def exportedChunk : Bytes :=
  (snapshotStore oneCommit).exportData lib plain

/-- A peer that offers a snapshot under its hash and sends its only chunk. -/
theorem completed_import_matches_honestPeer :
    ImportMatches id
      (Run.after (step id) (startedNew true true true true 1 [] 10 3)
        (oneChunkSync (snapshotHash id 5 [exportedChunk]) exportedChunk exportedChunk))
      (Run.trace (step id) (emit id) (startedNew true true true true 1 [] 10 3)
        (oneChunkSync (snapshotHash id 5 [exportedChunk]) exportedChunk exportedChunk)) := by
  refine completed_import_matches true true true true 1 [] 10 3 id (fun _ => [exportedChunk]) _ ?_
    (by decide +kernel)
  refine ⟨fromSource_of_unselected rfl, fromSource_of_unselected rfl,
    fromSource_of_unselected rfl, fromSource_of_selected rfl ⟨rfl, rfl⟩ (fun _ _ => False.elim),
    fromSource_of_selected rfl ⟨rfl, rfl⟩ ?_,
    fromSource_of_selected rfl ⟨rfl, rfl⟩ (fun _ _ => False.elim),
    fromSource_of_selected rfl ⟨rfl, rfl⟩ (fun _ _ => False.elim),
    fromSource_of_selected rfl ⟨rfl, rfl⟩ (fun _ _ => False.elim), trivial⟩
  rintro idx data ⟨offer, -, chunkIndex, isIndex, response⟩
  simp only [Option.some.injEq, SnapshotChunkResponse.mk.injEq] at response
  obtain ⟨-, rfl, rfl, -⟩ := response
  obtain rfl : idx = 0 := Int.natCast_eq_zero.mp isIndex.symm
  rfl

def forgedOffer : SnapshotOffer := ⟨"peer", 5, [9], 1, [1], none⟩

/-- The snapshot store imports what is sent under a made up hash, and the sync completes. -/
theorem forged_import_completes :
    (FlatTree.emptyStore.importSnapshot FlatTree.lib FlatTree.plain (snapshotOf forgedOffer)
        (memoryChunkProvider [exportedChunk])).isOk = true ∧
      (Run.after (step id) (startedNew true true true true 1 [] 10 3)
        (oneChunkSync [9] exportedChunk exportedChunk)).reactor.state = .complete ∧
      ¬ImportMatches id
        (Run.after (step id) (startedNew true true true true 1 [] 10 3)
          (oneChunkSync [9] exportedChunk exportedChunk))
        (Run.trace (step id) (emit id) (startedNew true true true true 1 [] 10 3)
          (oneChunkSync [9] exportedChunk exportedChunk)) := by
  refine ⟨by decide +kernel, by decide +kernel, fun agrees => ?_⟩
  obtain ⟨offer, selected, -, hash_eq⟩ :=
    agrees.hash_eq (snapshotOf forgedOffer) [exportedChunk] (by decide +kernel)
  cases selected
  revert hash_eq
  decide +kernel

end Blockberry.StateSync
