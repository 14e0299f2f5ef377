import Blockberry.Sync.StateSync

/-!
# Offers of one snapshot by several peers

The offers are kept by the hash of the snapshot, one for each hash. An offer therefore
replaces an earlier one of the same hash, whoever made it, and the peer of the earlier one
is no longer known to have the snapshot.
-/

namespace Blockberry.StateSync

open FiniteMap List

/-- A `SnapshotsResponse` and the peer that sends it. -/
structure OfferMessage where
  peerID : PeerID
  snapshots : List SnapshotMetadata
  deriving DecidableEq, Repr

/-- The reactor after a response has been handled. -/
def receiveOffers (r : StateSyncReactor) (message : OfferMessage) : StateSyncReactor :=
  (handleSnapshotsResponse r message.peerID (some message.snapshots)).reactor

/-- The offers of a list of responses, in the order in which they are made. -/
def offersIn (messages : List OfferMessage) : List SnapshotOffer :=
  messages.flatMap fun message => message.snapshots.filterMap (offerOf message.peerID)

def offersOfHash (offers : List SnapshotOffer) (hash : Bytes) : List SnapshotOffer :=
  offers.filter fun offer => offer.hash = hash

structure RecordsOffers (r : StateSyncReactor) (offers : List SnapshotOffer) : Prop where
  peers : ∀ order, Enumerates order r.offers → ∀ offer ∈ offers,
    offer.peerID ∈ getPeersWithSnapshot r offer.hash order
  first : ∀ hash first, (offersOfHash offers hash).head? = some first →
    ∃ recorded, r.offers.lookup hash = some recorded ∧ recorded.height = first.height ∧
      recorded.chunks = first.chunks ∧ recorded.appHash = first.appHash

/-- The last offer of a hash says what the first one says, and all offers of the hash are by
its peer. -/
def OfferedByOne (offers : List SnapshotOffer) : Prop :=
  ∀ hash first last, (offersOfHash offers hash).head? = some first →
    (offersOfHash offers hash).getLast? = some last →
      (last.height = first.height ∧ last.chunks = first.chunks ∧ last.appHash = first.appHash) ∧
        ∀ offer ∈ offers, offer.hash = hash → offer.peerID = last.peerID

variable {r : StateSyncReactor}

theorem state_foldl_storeOffer (offers : List SnapshotOffer) :
    (offers.foldl storeOffer r).state = r.state := by
  induction offers generalizing r with
  | nil => rfl
  | cons offer offers ih => exact ih

theorem foldl_receiveOffers (discovering : r.state = .discovering) (messages : List OfferMessage) :
    messages.foldl receiveOffers r = (offersIn messages).foldl storeOffer r := by
  induction messages generalizing r with
  | nil => rfl
  | cons message messages ih =>
    have first : receiveOffers r message =
        (message.snapshots.filterMap (offerOf message.peerID)).foldl storeOffer r := by
      rw [receiveOffers, handleSnapshotsResponse]
      simp only [discovering, ne_eq, not_true, if_false]
    have all : offersIn (message :: messages) =
        message.snapshots.filterMap (offerOf message.peerID) ++ offersIn messages :=
      flatMap_cons
    rw [foldl_cons, first, ih ((state_foldl_storeOffer _).trans discovering), all, foldl_append]

theorem lookup_foldl_storeOffer (empty : r.offers = ∅) (offers : List SnapshotOffer)
    (hash : Bytes) :
    (offers.foldl storeOffer r).offers.lookup hash = (offersOfHash offers hash).getLast? := by
  induction offers using List.reverseRecOn with
  | nil =>
    rw [foldl_nil, empty, Finmap.lookup_empty]
    rfl
  | append_singleton offers offer ih =>
    rw [foldl_append, foldl_cons, foldl_nil, storeOffer, lookup_insert, offersOfHash, filter_append]
    split
    next same => simp [same]
    next other =>
      rw [ih, offersOfHash]
      simp [other]

theorem hash_of_getLast? {offers : List SnapshotOffer} {hash : Bytes} {last : SnapshotOffer}
    (isLast : (offersOfHash offers hash).getLast? = some last) :
    last ∈ offers ∧ last.hash = hash := by
  have member := mem_of_getLast? isLast
  simpa [offersOfHash] using member

theorem mem_getPeersWithSnapshot_iff (own : ∀ hash offer, r.offers.lookup hash = some offer →
    offer.hash = hash) {order : List Bytes} (enumerates : Enumerates order r.offers)
    {hash : Bytes} {peerID : PeerID} :
    peerID ∈ getPeersWithSnapshot r hash order ↔
      ∃ offer, r.offers.lookup hash = some offer ∧ offer.peerID = peerID := by
  rw [getPeersWithSnapshot, mem_map]
  constructor
  · rintro ⟨offer, member, same⟩
    obtain ⟨found, isHash⟩ := mem_filter.mp member
    obtain ⟨key, -, isOffer⟩ := mem_filterMap.mp found
    have sameKey : key = hash := (own key offer isOffer).symm.trans (of_decide_eq_true isHash)
    exact ⟨offer, sameKey ▸ isOffer, same⟩
  · rintro ⟨offer, isOffer, same⟩
    have visited : hash ∈ order :=
      (enumerates.mem_iff hash).mpr (Finmap.mem_of_lookup_eq_some isOffer)
    refine ⟨offer, mem_filter.mpr ⟨mem_filterMap.mpr ⟨hash, visited, isOffer⟩, ?_⟩, same⟩
    exact decide_eq_true (own hash offer isOffer)

theorem enumerates_toList (offers : Finmap fun _ : Bytes => SnapshotOffer) :
    Enumerates offers.keys.toList offers where
  nodup := Finset.nodup_toList _
  mem_iff hash := by rw [Finset.mem_toList, Finmap.mem_keys]

theorem exists_getLast? {offers : List SnapshotOffer} {hash : Bytes} {offer : SnapshotOffer}
    (member : offer ∈ offersOfHash offers hash) :
    ∃ last, (offersOfHash offers hash).getLast? = some last :=
  ⟨_, List.getLast?_eq_some_getLast (ne_nil_of_mem member)⟩

/-- For every sequence of responses during discovery, every peer that made an offer is known to have
the snapshot and the first offer of each hash is kept, if and only if each hash is offered by one
peer, at last as at first. -/
theorem recordsOffers_iff_offeredByOne (networkSet peerManagerSet : Bool) (trustHeight : Int64)
    (trustHash : Bytes) (chunkRequestTimeout maxChunkRetries : Int)
    (messages : List OfferMessage) :
    let r := start (newStateSyncReactor networkSet peerManagerSet trustHeight trustHash
      chunkRequestTimeout maxChunkRetries)
    RecordsOffers (messages.foldl receiveOffers r) (offersIn messages) ↔
      OfferedByOne (offersIn messages) := by
  intro r
  have kept : ∀ hash, (messages.foldl receiveOffers r).offers.lookup hash =
      (offersOfHash (offersIn messages) hash).getLast? := by
    intro hash
    rw [foldl_receiveOffers rfl]
    exact lookup_foldl_storeOffer rfl (offersIn messages) hash
  have own : ∀ hash offer, (messages.foldl receiveOffers r).offers.lookup hash = some offer →
      offer.hash = hash := by
    intro hash offer isOffer
    rw [kept] at isOffer
    exact (hash_of_getLast? isOffer).2
  constructor
  · intro records hash first last isFirst isLast
    constructor
    · obtain ⟨recorded, isRecorded, same⟩ := records.first hash first isFirst
      rw [kept, isLast] at isRecorded
      cases isRecorded
      exact same
    · intro offer member isHash
      have known := records.peers _ (enumerates_toList _) offer member
      rw [mem_getPeersWithSnapshot_iff own (enumerates_toList _)] at known
      obtain ⟨recorded, isRecorded, same⟩ := known
      rw [kept, isHash, isLast] at isRecorded
      cases isRecorded
      exact same.symm
  · intro byOne
    constructor
    · intro order enumerates offer member
      have isOwn : offer ∈ offersOfHash (offersIn messages) offer.hash := by
        simpa [offersOfHash] using member
      obtain ⟨last, isLast⟩ := exists_getLast? isOwn
      have isFirst := List.head?_eq_some_head (ne_nil_of_mem isOwn)
      have samePeer := (byOne offer.hash _ last isFirst isLast).2 offer member rfl
      rw [mem_getPeersWithSnapshot_iff own enumerates]
      exact ⟨last, (kept offer.hash).trans isLast, samePeer.symm⟩
    · intro hash first isFirst
      obtain ⟨last, isLast⟩ := exists_getLast? (mem_of_head? isFirst)
      exact ⟨last, (kept hash).trans isLast, (byOne hash first last isFirst isLast).1⟩

/-- Two peers offer a snapshot under one hash, with different heights. -/
def twoOffers : List OfferMessage :=
  [⟨"first", [⟨some 5, some [9], some 1, some [1], 0⟩]⟩,
    ⟨"second", [⟨some 6, some [9], some 2, some [2], 0⟩]⟩]

/-- Only the second peer is known then, and its height is recorded. -/
theorem second_offer_replaces_first :
    let r := twoOffers.foldl receiveOffers (start (newStateSyncReactor true true 1 [] 0 3))
    getPeersWithSnapshot r [9] [[9]] = ["second"] ∧
      (r.offers.lookup [9]).map SnapshotOffer.height = some 6 ∧
      ¬RecordsOffers r (offersIn twoOffers) := by
  intro r
  have height : (r.offers.lookup [9]).map SnapshotOffer.height = some 6 := by decide +kernel
  refine ⟨by decide +kernel, height, ?_⟩
  intro records
  have isFirst : (offersOfHash (offersIn twoOffers) [9]).head? =
      some ⟨"first", 5, [9], 1, [1], none⟩ := by decide +kernel
  obtain ⟨recorded, isRecorded, sameHeight, -⟩ := records.first [9] _ isFirst
  rw [isRecorded] at height
  have six : recorded.height = 6 := Option.some.inj height
  rw [sameHeight] at six
  exact absurd six (by decide)

end Blockberry.StateSync
