import Blockberry.Lib.Serial
import Blockberry.Pex.AddressBook

/-!
# Saving and loading the address book

The file has the entries without the peer IDs that they are kept under, and `Load` takes the node
ID of an entry, which is the text of its peer, as the raw peer ID. Reading and writing files is
taken to succeed.
-/

namespace Blockberry.Pex

open FiniteMap AddressBook List AddressEntry

structure AddressBookData where
  peers : List AddressEntry
  seeds : List SeedNode
  deriving DecidableEq, Repr

structure BookJson where
  marshal : AddressBookData → Bytes
  unmarshal : Bytes → Option AddressBookData
  unmarshal_marshal : ∀ data, unmarshal (marshal data) = some data

abbrev Files := Finmap fun _ : String => Bytes

inductive LoadError where
  | parsingAddressBook
  deriving DecidableEq, Repr

/-- The conversion `peer.ID(text)` keeps the bytes of the text. -/
def rawPeerID (text : String) : PeerID := text

/-- One iteration over the entries of the file. -/
def loadEntry (peers : Finmap fun _ : PeerID => AddressEntry) (entry : AddressEntry) :
    Finmap fun _ : PeerID => AddressEntry :=
  if entry.nodeID = "" then peers else peers.insert (rawPeerID entry.nodeID) entry

namespace AddressBook

variable (json : BookJson)

/-- The entries in the order of a loop over the map. -/
def entriesIn (ab : AddressBook) (order : List PeerID) : List AddressEntry :=
  order.filterMap ab.peers.lookup

def save (ab : AddressBook) (order : List PeerID) (files : Files) : Files :=
  if ab.path = "" then files
  else files.insert ab.path (json.marshal ⟨ab.entriesIn order, ab.seeds⟩)

def load (files : Files) (ab : AddressBook) : Except LoadError AddressBook :=
  if ab.path = "" then .ok ab
  else
    match files.lookup ab.path with
    | none => .ok ab
    | some data =>
      match json.unmarshal data with
      | none => .error .parsingAddressBook
      | some book => .ok { ab with peers := book.peers.foldl loadEntry ∅, seeds := book.seeds }

end AddressBook

/-- A path that is not empty. -/
structure BookPath where
  path : String
  nonempty : path ≠ ""

/-- A loop over the entries of a book. -/
structure Visit (ab : AddressBook) where
  order : List PeerID
  enumerates : Enumerates order ab.peers

/-- The book that is loaded answers as the one that was saved. -/
structure SameBook (ab loaded : AddressBook) : Prop where
  hasPeer : ∀ id, loaded.hasPeer id = ab.hasPeer id
  getPeer : ∀ id, loaded.getPeer id = ab.getPeer id
  seeds : loaded.seeds = ab.seeds

/-- Saving a book and loading it into a new one with the same path gives the same book. -/
def RoundTrips (json : BookJson) (ab : AddressBook) (order : List PeerID) (files : Files)
    (maxAddresses : Int) : Prop :=
  ∃ loaded, AddressBook.load json (ab.save json order files)
    (.newAddressBookWithLimit ab.path maxAddresses) = .ok loaded ∧ SameBook ab loaded

section Loading

variable {id : PeerID} {entry : AddressEntry} {peers : Finmap fun _ : PeerID => AddressEntry}
  {entries : List AddressEntry}

/-- What is loaded for a peer has the peer as its node ID, and is in the file. -/
theorem mem_of_lookup_foldl (found : (entries.foldl loadEntry peers).lookup id = some entry) :
    entry ∈ entries ∧ entry.nodeID = id ∧ entry.nodeID ≠ "" ∨ peers.lookup id = some entry := by
  induction entries generalizing peers with
  | nil => exact .inr found
  | cons first entries ih =>
    rcases ih found with ⟨member, isLater⟩ | before
    · exact .inl ⟨mem_cons_of_mem _ member, isLater⟩
    · rw [loadEntry] at before
      split at before
      next => exact .inr before
      next nonempty =>
        rw [lookup_insert] at before
        split at before
        next same =>
          cases before
          exact .inl ⟨mem_cons_self, same, nonempty⟩
        next => exact .inr before

theorem lookup_foldl_of_ne (absent : id ∉ entries.map nodeID) :
    (entries.foldl loadEntry peers).lookup id = peers.lookup id := by
  induction entries generalizing peers with
  | nil => rfl
  | cons first entries ih =>
    rw [map_cons, mem_cons, not_or] at absent
    rw [foldl_cons, ih absent.2, loadEntry]
    split
    next => rfl
    next => exact Finmap.lookup_insert_of_ne _ absent.1

/-- Entries with different node IDs that are not empty are all loaded. -/
theorem lookup_foldl_of_mem
    (nodup : (entries.map nodeID).Nodup) (member : entry ∈ entries)
    (nonempty : entry.nodeID ≠ "") :
    (entries.foldl loadEntry peers).lookup (rawPeerID entry.nodeID) = some entry := by
  induction entries generalizing peers with
  | nil => cases member
  | cons first entries ih =>
    rw [map_cons, nodup_cons] at nodup
    rw [foldl_cons]
    rcases mem_cons.mp member with rfl | isLater
    · rw [loadEntry, if_neg nonempty]
      exact (lookup_foldl_of_ne nodup.1).trans (Finmap.lookup_insert _)
    · exact ih nodup.2 isLater

end Loading

section RoundTrip

variable {ab : AddressBook} {order : List PeerID}

theorem mem_entriesIn {entry : AddressEntry} (enumerates : Enumerates order ab.peers) :
    entry ∈ ab.entriesIn order ↔ ∃ id, ab.peers.lookup id = some entry := by
  rw [entriesIn, mem_filterMap]
  constructor
  · rintro ⟨id, -, found⟩
    exact ⟨id, found⟩
  · rintro ⟨id, found⟩
    exact ⟨id, (enumerates.mem_iff id).mpr (Finmap.mem_of_lookup_eq_some found), found⟩

/-- The node IDs of the entries are the raw peer IDs. -/
def RawNodeIDs (ab : AddressBook) : Prop :=
  ∀ id entry, ab.peers.lookup id = some entry → entry.nodeID = id ∧ id ≠ ""

theorem map_entriesIn (raw : RawNodeIDs ab) (known : ∀ id ∈ order, id ∈ ab.peers) :
    (ab.entriesIn order).map nodeID = order := by
  induction order with
  | nil => rfl
  | cons id order ih =>
    obtain ⟨entry, found⟩ := Finmap.mem_iff.mp (known id mem_cons_self)
    have later := ih fun other member => known other (mem_cons_of_mem _ member)
    simp only [entriesIn, filterMap_cons, found, map_cons, (raw id entry found).1]
    exact congrArg (id :: ·) later

/-- The peers that are loaded from the entries of a book. -/
def reloaded (ab : AddressBook) (order : List PeerID) : Finmap fun _ : PeerID => AddressEntry :=
  (ab.entriesIn order).foldl loadEntry ∅

theorem lookup_reloaded (raw : RawNodeIDs ab) (enumerates : Enumerates order ab.peers)
    (id : PeerID) : (reloaded ab order).lookup id = ab.peers.lookup id := by
  have isOrder := map_entriesIn raw fun other member => (enumerates.mem_iff other).mp member
  cases found : ab.peers.lookup id with
  | some entry =>
    have isRaw := raw id entry found
    have nodup : ((ab.entriesIn order).map nodeID).Nodup := by
      rw [isOrder]
      exact enumerates.nodup
    have member := (mem_entriesIn enumerates).mpr ⟨id, found⟩
    have loaded : (reloaded ab order).lookup (rawPeerID entry.nodeID) = some entry :=
      lookup_foldl_of_mem nodup member (isRaw.1 ▸ isRaw.2)
    rwa [isRaw.1] at loaded
  | none =>
    refine (lookup_foldl_of_ne ?_).trans (Finmap.lookup_empty id)
    rw [isOrder, enumerates.mem_iff]
    exact Finmap.lookup_eq_none.mp found

theorem rawNodeIDs_of_reloaded (same : ∀ id, (reloaded ab order).lookup id = ab.peers.lookup id) :
    RawNodeIDs ab := by
  intro id entry found
  rw [← same] at found
  rcases mem_of_lookup_foldl found with ⟨-, isID, nonempty⟩ | impossible
  · exact ⟨isID, isID ▸ nonempty⟩
  · cases impossible

theorem load_save (json : BookJson) (hasPath : ab.path ≠ "") (files : Files) (maxAddresses : Int) :
    load json (ab.save json order files) (.newAddressBookWithLimit ab.path maxAddresses) =
      .ok ⟨reloaded ab order, ab.seeds, ab.path, maxAddresses⟩ := by
  simp only [load, save, newAddressBookWithLimit, hasPath,
    ↓reduceIte, Finmap.lookup_insert, json.unmarshal_marshal]
  rfl

theorem sameBook_iff (maxAddresses : Int) :
    SameBook ab ⟨reloaded ab order, ab.seeds, ab.path, maxAddresses⟩ ↔
      ∀ id, (reloaded ab order).lookup id = ab.peers.lookup id := by
  constructor
  · intro same
    exact same.getPeer
  · intro same
    refine ⟨fun id => ?_, same, rfl⟩
    simp only [hasPeer, ← Finmap.lookup_isSome, same]

theorem roundTrips_iff_raw (json : BookJson) (hasPath : ab.path ≠ "")
    (enumerates : Enumerates order ab.peers) (files : Files) (maxAddresses : Int) :
    RoundTrips json ab order files maxAddresses ↔ RawNodeIDs ab := by
  rw [RoundTrips, load_save json hasPath]
  constructor
  · rintro ⟨loaded, isLoaded, same⟩
    cases isLoaded
    exact rawNodeIDs_of_reloaded ((sameBook_iff maxAddresses).mp same)
  · intro raw
    exact ⟨_, rfl, (sameBook_iff maxAddresses).mpr (lookup_reloaded raw enumerates)⟩

end RoundTrip

/-- A book that the reactor has filled comes back from its file exactly if the node ID of every
entry is the raw, nonempty ID of its peer. The node IDs are texts that decode to their peers. -/
theorem roundTrips_iff_rawNodeIDs (text : PeerText) (json : BookJson) (file : BookPath)
    (maxAddresses newMax : Int) (events : List TimedPexEvent) (files : Files)
    (visit : Visit (Run.after (AddressBook.step text)
      (.newAddressBookWithLimit file.path maxAddresses) events)) :
    Decodes text (Run.after (AddressBook.step text)
      (.newAddressBookWithLimit file.path maxAddresses) events) ∧
    (RoundTrips json (Run.after (AddressBook.step text)
        (.newAddressBookWithLimit file.path maxAddresses) events) visit.order files newMax ↔
      RawNodeIDs (Run.after (AddressBook.step text)
        (.newAddressBookWithLimit file.path maxAddresses) events)) := by
  constructor
  · apply Decodes.after
    intro id entry found
    cases found
  · apply roundTrips_iff_raw json _ visit.enumerates
    rw [path_after]
    exact file.nonempty

namespace PlainBook

open Serial

def entry : Encoding AddressEntry :=
  retract (pair string (pair string (pair int (pair int (pair bool (pair int int))))))
    (fun entry => (entry.multiaddr, entry.nodeID, entry.lastSeen.toInt, entry.latency.toInt,
      entry.isSeed, entry.lastAttempt.toInt, entry.attemptCount))
    (fun parts => ⟨parts.1, parts.2.1, .ofInt parts.2.2.1, .ofInt parts.2.2.2.1,
      parts.2.2.2.2.1, .ofInt parts.2.2.2.2.2.1, parts.2.2.2.2.2.2⟩) fun entry => by
      simp

def data : Encoding AddressBookData :=
  retract (pair (list entry) (list string))
    (fun data => (data.peers, data.seeds.map SeedNode.multiaddr))
    (fun parts => ⟨parts.1, parts.2.map SeedNode.mk⟩) fun data => by
      have same : SeedNode.mk ∘ SeedNode.multiaddr = id := rfl
      simp only [List.map_map, same, List.map_id]

/-- A marshalling that round-trips. -/
def json : BookJson where
  marshal := data.write
  unmarshal bytes := (data.read bytes).map Prod.fst
  unmarshal_marshal value := by
    have read := data.read_write value []
    rw [List.append_nil] at read
    rw [read, Option.map_some]

/-- Peer IDs written with a letter in front. -/
def text : PeerText where
  encode id := String.ofList ('Q' :: id.toList)
  decode text :=
    match text.toList with
    | 'Q' :: id => some (String.ofList id)
    | _ => none
  decode_encode id := by
    simp

end PlainBook

def seeded (later : List TimedPexEvent) : AddressBook :=
  Run.after (step PlainBook.text) (.newAddressBookWithLimit "book" 0)
    (⟨1, fun _ => [], .addSeeds ["/s"]⟩ :: ⟨2, fun _ => [], .peerConnected "p" "/a"⟩ :: later)

/-- The book comes back from its file without the peer, and not with it. -/
theorem roundTrips_without_peer :
    RoundTrips PlainBook.json (seeded [⟨3, fun _ => [], .removePeer "p"⟩]) [] ∅ 0 ∧
      ¬RoundTrips PlainBook.json (seeded []) ["p"] ∅ 0 := by
  have noPeers : (seeded [⟨3, fun _ => [], .removePeer "p"⟩]).peers = ∅ := by decide +kernel
  have onePeer : (seeded []).peers = (∅ : Finmap fun _ : PeerID => AddressEntry).insert "p"
      ⟨"/a", "Qp", 2, 0, false, 0, 0⟩ := by
    decide +kernel
  constructor
  · let visit : Visit (seeded [⟨3, fun _ => [], .removePeer "p"⟩]) :=
      ⟨[], nodup_nil, fun id => by simp [noPeers, Finmap.notMem_empty]⟩
    apply (roundTrips_iff_rawNodeIDs PlainBook.text PlainBook.json ⟨"book", by decide⟩ 0 0 _ ∅
      visit).2.mpr
    intro id entry found
    change (seeded [⟨3, fun _ => [], .removePeer "p"⟩]).peers.lookup id = some entry at found
    rw [noPeers] at found
    cases found
  · let visit : Visit (seeded []) :=
      ⟨["p"], nodup_singleton "p", fun id => by simp [onePeer, Finmap.notMem_empty]⟩
    intro roundTrips
    have raw := (roundTrips_iff_rawNodeIDs PlainBook.text PlainBook.json ⟨"book", by decide⟩ 0 0 _ ∅
      visit).2.mp roundTrips
    have found : (seeded []).peers.lookup "p" = some ⟨"/a", "Qp", 2, 0, false, 0, 0⟩ := by
      rw [onePeer]
      exact Finmap.lookup_insert _
    exact absurd (raw "p" _ found).1 (by decide)

/-- A peer that connects is in the book under its ID, and after saving and loading under its
text only. -/
theorem reloaded_under_text :
    let ab := Run.after (step PlainBook.text)
      (.newAddressBookWithLimit "book" 0) [⟨1, fun _ => [], .peerConnected "p" "/a"⟩]
    let loaded := load PlainBook.json (ab.save PlainBook.json ["p"] ∅)
      (.newAddressBookWithLimit "book" 0)
    (ab.hasPeer "p" = true ∧ ab.hasPeer "Qp" = false) ∧
      (loaded.toOption.map fun ab => (ab.hasPeer "p", ab.hasPeer "Qp")) = some (false, true) := by
  decide +kernel

end Blockberry.Pex
