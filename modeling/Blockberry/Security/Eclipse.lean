import Blockberry.Lib.FiniteMap
import Blockberry.Lib.Run
import Blockberry.Types.Basic

/-!
# Eclipse protection

`EclipseProtector` indexes the connected peers by subnet and by the source that named them. A
disconnect takes off what the record of the peer says. A second connection replaces the record and
is counted once more, and a source that is recorded before the peer connects, or a second time, is
in the index and not in the record. The indexes and counters are right in exactly the runs without
such events.
-/

namespace Blockberry.Security

open FiniteMap List

/-- What `extractSubnet` uses of the package `net`. An address that does not parse is `none`. -/
structure NetPackage where
  splitHostPort : String → Option String
  parseIP : String → Option Bytes
  to4 : Bytes → Option (UInt8 × UInt8 × UInt8 × UInt8)
  ipString : Bytes → String
  ipNetString : UInt8 × UInt8 × UInt8 × UInt8 → Nat → String

/-- The `/24` subnet of an IPv4 address and the `/48` prefix of an IPv6 address; what is no
address has no subnet. -/
def NetPackage.extractSubnet (net : NetPackage) (addr : String) : String :=
  let host := (net.splitHostPort addr).getD addr
  match net.parseIP host with
  | none => ""
  | some ip =>
    match net.to4 ip with
    | none => if 6 ≤ ip.length then net.ipString (ip.take 6) else ""
    | some (a, b, c, _) => net.ipNetString (a, b, c, 0) 24

structure EclipseMitigationConfig where
  maxPeersFromSameSource : Int
  trustDuration : Int
  deriving DecidableEq, Repr

structure PeerInfo where
  subnet : String
  sourceID : Bytes
  isInbound : Bool
  connectedAt : Int
  misbehaviors : Nat
  deriving DecidableEq, Repr

structure EclipseProtector where
  peers : Finmap fun _ : PeerID => PeerInfo
  subnetPeers : Finmap fun _ : String => List PeerID
  sourcePeers : Finmap fun _ : Bytes => List PeerID
  trustedPeers : Finmap fun _ : PeerID => Int
  inboundCount : Int
  outboundCount : Int

def day : Int := 24 * 3600 * 1000000000

namespace EclipseProtector

def newEclipseProtector : EclipseProtector := ⟨∅, ∅, ∅, ∅, 0, 0⟩

def inSubnet (p : EclipseProtector) (subnet : String) : List PeerID :=
  valueOr [] p.subnetPeers subnet

def fromSource (p : EclipseProtector) (source : Bytes) : List PeerID :=
  valueOr [] p.sourcePeers source

variable (cfg : EclipseMitigationConfig)

variable (p : EclipseProtector)

/-- The source has not named too many peers. -/
def HasRoom (source : Bytes) : Prop :=
  (p.fromSource source).length < cfg.maxPeersFromSameSource

instance (cfg : EclipseMitigationConfig) (p : EclipseProtector) (source : Bytes) :
    Decidable (p.HasRoom cfg source) := inferInstanceAs (Decidable (_ < _))

/-- The record of a tracked peer is changed. -/
def modify (id : PeerID) (change : PeerInfo → PeerInfo) : EclipseProtector :=
  match p.peers.lookup id with
  | none => p
  | some info => { p with peers := p.peers.insert id (change info) }

def recordPeerSource (id : PeerID) (source : Bytes) : EclipseProtector :=
  if p.HasRoom cfg source then
    { p.modify id ({ · with sourceID := source }) with
      sourcePeers := addTo p.sourcePeers source id }
  else p

def onPeerMisbehavior (id : PeerID) : EclipseProtector :=
  if id ∈ p.peers then
    { p.modify id (fun info => { info with misbehaviors := info.misbehaviors + 1 }) with
      trustedPeers := p.trustedPeers.erase id }
  else p

def onPeerConnected (net : NetPackage) (now : Int) (p : EclipseProtector) (id : PeerID)
    (addr : String) (isInbound : Bool) : EclipseProtector :=
  let subnet := net.extractSubnet addr
  let info : PeerInfo := ⟨subnet, [], isInbound, now, 0⟩
  { p with
    peers := p.peers.insert id info
    subnetPeers := if subnet ≠ "" then addTo p.subnetPeers subnet id else p.subnetPeers
    inboundCount := if isInbound then p.inboundCount + 1 else p.inboundCount
    outboundCount := if isInbound then p.outboundCount else p.outboundCount + 1 }

def onPeerDisconnected (now : Int) (p : EclipseProtector) (id : PeerID) : EclipseProtector :=
  match p.peers.lookup id with
  | none => p
  | some info =>
    { peers := p.peers.erase id
      subnetPeers :=
        if info.subnet ≠ "" then removeFrom p.subnetPeers info.subnet id else p.subnetPeers
      sourcePeers :=
        if info.sourceID ≠ [] then removeFrom p.sourcePeers info.sourceID id else p.sourcePeers
      trustedPeers :=
        if info.misbehaviors = 0 ∧ day < now - info.connectedAt then
          p.trustedPeers.insert id (now + cfg.trustDuration)
        else p.trustedPeers
      inboundCount := if info.isInbound then p.inboundCount - 1 else p.inboundCount
      outboundCount := if info.isInbound then p.outboundCount else p.outboundCount - 1 }

def trustPeer (now : Int) (p : EclipseProtector) (id : PeerID) : EclipseProtector :=
  { p with trustedPeers := p.trustedPeers.insert id (now + cfg.trustDuration) }

end EclipseProtector

open EclipseProtector

/-- The calls that change a protector, with the time of those that read the clock. -/
inductive EclipseCall where
  | onPeerConnected (id : PeerID) (addr : String) (isInbound : Bool) (now : Int)
  | onPeerDisconnected (id : PeerID) (now : Int)
  | recordPeerSource (id : PeerID) (source : Bytes)
  | onPeerMisbehavior (id : PeerID)
  | trustPeer (id : PeerID) (now : Int)

namespace EclipseProtector

def step (net : NetPackage) (cfg : EclipseMitigationConfig) (p : EclipseProtector) :
    EclipseCall → EclipseProtector
  | .onPeerConnected id addr isInbound now => p.onPeerConnected net now id addr isInbound
  | .onPeerDisconnected id now => p.onPeerDisconnected cfg now id
  | .recordPeerSource id source => p.recordPeerSource cfg id source
  | .onPeerMisbehavior id => p.onPeerMisbehavior id
  | .trustPeer id now => p.trustPeer cfg now id

/-! ## The property -/

/-- The counters count the tracked peers, and a subnet lists those that have it, each once. -/
structure Consistent (p : EclipseProtector) : Prop where
  inbound : p.inboundCount = countValues (·.isInbound) p.peers
  outbound : p.outboundCount = countValues (!·.isInbound) p.peers
  nodup : ∀ subnet, (p.inSubnet subnet).Nodup
  mem_iff : ∀ subnet, subnet ≠ "" → ∀ id,
    id ∈ p.inSubnet subnet ↔ (p.peers.lookup id).map (·.subnet) = some subnet

/-- No list mentions the peer. -/
structure Forgets (p : EclipseProtector) (id : PeerID) : Prop where
  subnets : ∀ subnet, id ∉ p.inSubnet subnet
  sources : ∀ source, id ∉ p.fromSource source

end EclipseProtector

/-- A source that was recorded for a peer, and whether the peer was tracked. -/
structure SourceRecord where
  id : PeerID
  source : Bytes
  tracked : Bool
  deriving DecidableEq, Repr

/-- A protector with the records of sources made since their peer last disconnected. -/
structure Watched where
  protector : EclipseProtector
  records : List SourceRecord

namespace Watched

def init : Watched := ⟨.newEclipseProtector, []⟩

def recordsOf (w : Watched) (id : PeerID) : List SourceRecord := w.records.filter (·.id = id)

def step (net : NetPackage) (cfg : EclipseMitigationConfig) (w : Watched) (call : EclipseCall) :
    Watched where
  protector := w.protector.step net cfg call
  records :=
    match call with
    | .recordPeerSource id source =>
      if w.protector.HasRoom cfg source then
        w.records ++ [⟨id, source, id ∈ w.protector.peers⟩]
      else w.records
    | .onPeerDisconnected id _ => w.records.filter (·.id ≠ id)
    | _ => w.records

/-- The call leaves the protector consistent, and a peer that disconnects forgotten. -/
def Keeps (net : NetPackage) (cfg : EclipseMitigationConfig) (w : Watched) (call : EclipseCall) :
    Prop :=
  (w.protector.step net cfg call).Consistent ∧
    match call with
    | .onPeerDisconnected id _ => (w.protector.step net cfg call).Forgets id
    | _ => True

def Orderly (w : Watched) : EclipseCall → Prop
  | .onPeerConnected id _ _ _ => id ∉ w.protector.peers
  | .onPeerDisconnected id _ =>
    w.recordsOf id = [] ∨ ∃ source, w.recordsOf id = [⟨id, source, true⟩] ∧ source ≠ []
  | _ => True

end Watched

namespace EclipseProtector

variable {p : EclipseProtector} {id : PeerID}

theorem Consistent.modify (consistent : p.Consistent) {change : PeerInfo → PeerInfo}
    (subnet : ∀ info, (change info).subnet = info.subnet)
    (direction : ∀ info, (change info).isInbound = info.isInbound) :
    (p.modify id change).Consistent := by
  rw [EclipseProtector.modify]
  split
  next => exact consistent
  next info found =>
    refine ⟨?_, ?_, consistent.nodup, fun s named other => ?_⟩
    · have counted := @countValues_replace _ _ _ _ _ (·.isInbound) _ found (change info)
      rw [direction] at counted
      rw [consistent.inbound, Nat.add_right_cancel counted]
    · have counted := @countValues_replace _ _ _ _ _ (!·.isInbound) _ found (change info)
      rw [direction] at counted
      rw [consistent.outbound, Nat.add_right_cancel counted]
    · rw [lookup_insert]
      refine (consistent.mem_iff s named other).trans ?_
      split
      next same => rw [← same, found, Option.map_some, Option.map_some, subnet]
      next => rfl

theorem valueOr_of_named {α : Type*} [DecidableEq α]
    (index changed : Finmap fun _ : α => List PeerID) (key unnamed : α)
    (change : List PeerID → List PeerID)
    (isChange : ∀ query, valueOr [] changed query =
      if query = key then change (valueOr [] index query) else valueOr [] index query) (query : α) :
    valueOr [] (if key ≠ unnamed then changed else index) query =
      if query = key ∧ query ≠ unnamed then change (valueOr [] index query)
      else valueOr [] index query := by
  by_cases same : query = key
  · subst same
    by_cases named : query ≠ unnamed
    · rw [if_pos named, if_pos ⟨rfl, named⟩, isChange, if_pos rfl]
    · rw [if_neg named, if_neg fun both => named both.2]
  · have other := isChange query
    rw [if_neg same] at other
    rw [apply_ite (valueOr [] · query), other, ite_self, if_neg fun both => same both.1]

theorem inSubnet_onPeerConnected (net : NetPackage) (now : Int) (addr : String)
    (isInbound : Bool) (subnet : String) :
    (p.onPeerConnected net now id addr isInbound).inSubnet subnet =
      if subnet = net.extractSubnet addr ∧ subnet ≠ "" then p.inSubnet subnet ++ [id]
      else p.inSubnet subnet :=
  valueOr_of_named p.subnetPeers _ _ "" (· ++ [id])
    (fun query => valueOr_addTo p.subnetPeers _ query id) subnet

theorem Consistent.onPeerConnected (consistent : p.Consistent) (absent : id ∉ p.peers)
    (net : NetPackage) (now : Int) (addr : String) (isInbound : Bool) :
    (p.onPeerConnected net now id addr isInbound).Consistent := by
  have notFound : p.peers.lookup id = none := Finmap.lookup_eq_none.mpr absent
  have notListed : ∀ subnet, subnet ≠ "" → id ∉ p.inSubnet subnet := by
    intro subnet named listed
    have tracked := (consistent.mem_iff subnet named id).mp listed
    rw [notFound] at tracked
    cases tracked
  refine ⟨?_, ?_, fun subnet => ?_, fun subnet named other => ?_⟩
  · rw [EclipseProtector.onPeerConnected]
    dsimp only
    rw [countValues_insert absent, consistent.inbound]
    cases isInbound <;> rfl
  · rw [EclipseProtector.onPeerConnected]
    dsimp only
    rw [countValues_insert absent, consistent.outbound]
    cases isInbound <;> rfl
  · rw [inSubnet_onPeerConnected]
    split
    next isSubnet =>
      rw [nodup_append_comm]
      exact nodup_cons.mpr ⟨notListed subnet isSubnet.2, consistent.nodup subnet⟩
    next => exact consistent.nodup subnet
  · rw [inSubnet_onPeerConnected, EclipseProtector.onPeerConnected]
    dsimp only
    rw [lookup_insert]
    by_cases same : id = other
    · subst same
      rw [if_pos rfl, Option.map_some, Option.some_inj]
      split
      next isSubnet => simp [isSubnet.1]
      next different =>
        refine iff_of_false (notListed subnet named) fun isSubnet => ?_
        exact different ⟨isSubnet.symm, named⟩
    · rw [if_neg same, ← consistent.mem_iff subnet named]
      split
      next => simp [Ne.symm same]
      next => rfl

section Disconnect

variable {info : PeerInfo} (cfg : EclipseMitigationConfig)

include cfg

variable (now : Int)

theorem inSubnet_onPeerDisconnected (found : p.peers.lookup id = some info) (subnet : String) :
    (p.onPeerDisconnected cfg now id).inSubnet subnet =
      if subnet = info.subnet ∧ subnet ≠ "" then (p.inSubnet subnet).erase id
      else p.inSubnet subnet := by
  rw [EclipseProtector.onPeerDisconnected, found]
  exact valueOr_of_named p.subnetPeers _ _ "" (·.erase id)
    (fun query => valueOr_removeFrom p.subnetPeers _ query id) subnet

theorem fromSource_onPeerDisconnected (found : p.peers.lookup id = some info) (source : Bytes) :
    (p.onPeerDisconnected cfg now id).fromSource source =
      if source = info.sourceID ∧ source ≠ [] then (p.fromSource source).erase id
      else p.fromSource source := by
  rw [EclipseProtector.onPeerDisconnected, found]
  exact valueOr_of_named p.sourcePeers _ _ [] (·.erase id)
    (fun query => valueOr_removeFrom p.sourcePeers _ query id) source

theorem onPeerDisconnected_of_none
    (absent : p.peers.lookup id = none) : p.onPeerDisconnected cfg now id = p := by
  rw [EclipseProtector.onPeerDisconnected, absent]

theorem peers_onPeerDisconnected : (p.onPeerDisconnected cfg now id).peers = p.peers.erase id := by
  rw [EclipseProtector.onPeerDisconnected]
  split
  next absent =>
    apply Finmap.ext_lookup
    intro other
    rw [lookup_erase]
    split
    next same => rw [← same, absent]
    next => rfl
  next => rfl

omit cfg

theorem Consistent.onPeerDisconnected (consistent : p.Consistent) (cfg : EclipseMitigationConfig)
    (now : Int) : (p.onPeerDisconnected cfg now id).Consistent := by
  cases found : p.peers.lookup id with
  | none =>
    rw [onPeerDisconnected_of_none cfg now found]
    exact consistent
  | some info =>
    refine ⟨?_, ?_, fun subnet => ?_, fun subnet named other => ?_⟩
    · have counted := @countValues_erase _ _ _ _ _ (·.isInbound) _ found
      rw [peers_onPeerDisconnected, EclipseProtector.onPeerDisconnected, found]
      dsimp only
      rw [consistent.inbound, ← counted]
      cases info.isInbound <;> simp
    · have counted := @countValues_erase _ _ _ _ _ (!·.isInbound) _ found
      rw [peers_onPeerDisconnected, EclipseProtector.onPeerDisconnected, found]
      dsimp only
      rw [consistent.outbound, ← counted]
      cases info.isInbound <;> simp
    · rw [inSubnet_onPeerDisconnected cfg now found]
      split
      next => exact (consistent.nodup subnet).erase id
      next => exact consistent.nodup subnet
    · rw [inSubnet_onPeerDisconnected cfg now found, peers_onPeerDisconnected, lookup_erase]
      have listed := consistent.mem_iff subnet named
      by_cases same : id = other
      · subst same
        rw [if_pos rfl]
        refine iff_of_false ?_ (by simp)
        split
        next => exact (consistent.nodup subnet).not_mem_erase
        next different =>
          rw [listed, found, Option.map_some, Option.some_inj]
          exact fun isSubnet => different ⟨isSubnet.symm, named⟩
      · rw [if_neg same, ← listed other]
        split
        next => exact mem_erase_of_ne (Ne.symm same)
        next => rfl

end Disconnect

end EclipseProtector

namespace Watched

structure Kept (w : Watched) : Prop where
  consistent : w.protector.Consistent
  unnamed : w.protector.inSubnet "" = []
  sources : ∀ source id,
    (w.protector.fromSource source).count id = (w.recordsOf id).countP (·.source = source)
  latest : ∀ id info, w.protector.peers.lookup id = some info →
    info.sourceID = (((w.recordsOf id).filter (·.tracked)).getLast?.map (·.source)).getD []
  tracked : ∀ record ∈ w.records, record.tracked = true → record.id ∈ w.protector.peers

theorem kept_init : Kept init where
  consistent := ⟨rfl, rfl, fun _ => nodup_nil, fun _ _ _ => by
    simp [init, newEclipseProtector, inSubnet]⟩
  unnamed := rfl
  sources _ _ := rfl
  latest _ _ found := by simp [init, newEclipseProtector] at found
  tracked := by simp [init]

variable {w : Watched} {id : PeerID}

theorem recordsOf_append (protector : EclipseProtector) (record : SourceRecord) (id : PeerID) :
    recordsOf ⟨protector, w.records ++ [record]⟩ id =
      if record.id = id then w.recordsOf id ++ [record] else w.recordsOf id := by
  rw [recordsOf, filter_append]
  split
  next same => simp [recordsOf, same]
  next different => simp [recordsOf, different]

theorem recordsOf_filter (protector : EclipseProtector) (id other : PeerID) :
    recordsOf ⟨protector, w.records.filter (·.id ≠ id)⟩ other =
      if other = id then [] else w.recordsOf other := by
  rw [recordsOf, filter_filter]
  split
  next same => simp [same]
  next different =>
    rw [recordsOf]
    apply filter_congr
    intro record _
    by_cases isOther : record.id = other
    · simp [isOther, different]
    · simp [isOther]

/-- No source was recorded for a peer that is not tracked while it was. -/
theorem Kept.filter_tracked (kept : Kept w) (absent : id ∉ w.protector.peers) :
    (w.recordsOf id).filter (·.tracked) = [] := by
  rw [filter_eq_nil_iff]
  intro record member isTracked
  obtain ⟨inRecords, isRecord⟩ := mem_filter.mp member
  rw [decide_eq_true_eq] at isRecord
  exact absent (isRecord ▸ kept.tracked record inRecords isTracked)

/-- A call that leaves the lists of the sources and the sources of the tracked peers as they
are. -/
theorem Kept.of_same_sources (kept : Kept w) {protector : EclipseProtector}
    (consistent : protector.Consistent) (unnamed : protector.inSubnet "" = [])
    (same : protector.sourcePeers = w.protector.sourcePeers)
    (latest : ∀ id info, protector.peers.lookup id = some info →
      info.sourceID = (((w.recordsOf id).filter (·.tracked)).getLast?.map (·.source)).getD [])
    (grows : ∀ id, id ∈ w.protector.peers → id ∈ protector.peers) :
    Kept ⟨protector, w.records⟩ where
  consistent := consistent
  unnamed := unnamed
  sources source id := by
    rw [fromSource, same]
    exact kept.sources source id
  latest := latest
  tracked record member isTracked := grows _ (kept.tracked record member isTracked)

end Watched

namespace EclipseProtector

variable {p : EclipseProtector} {id : PeerID} (change : PeerInfo → PeerInfo)

include change

theorem lookup_modify (other : PeerID) : (p.modify id change).peers.lookup other =
      if id = other then (p.peers.lookup other).map change else p.peers.lookup other := by
  rw [modify]
  split
  next absent =>
    split
    next same =>
      rw [← same, absent]
      rfl
    next => rfl
  next info found =>
    dsimp only
    rw [lookup_insert]
    split
    next same =>
      rw [← same, found]
      rfl
    next => rfl

theorem mem_modify (other : PeerID) : other ∈ (p.modify id change).peers ↔ other ∈ p.peers := by
  rw [← Finmap.lookup_isSome, lookup_modify, ← Finmap.lookup_isSome]
  split
  next => rw [Option.isSome_map]
  next => rfl

theorem subnetPeers_modify : (p.modify id change).subnetPeers = p.subnetPeers := by
  rw [modify]
  split <;> rfl

theorem sourcePeers_modify : (p.modify id change).sourcePeers = p.sourcePeers := by
  rw [modify]
  split <;> rfl

end EclipseProtector

namespace Watched

variable {w : Watched} {id : PeerID} (net : NetPackage) (cfg : EclipseMitigationConfig)
  (kept : Kept w)

include kept

theorem Kept.onPeerConnected (absent : id ∉ w.protector.peers) (addr : String)
    (isInbound : Bool) (now : Int) :
    Kept (w.step net cfg (.onPeerConnected id addr isInbound now)) := by
  apply kept.of_same_sources
  · exact kept.consistent.onPeerConnected absent net now addr isInbound
  · refine (EclipseProtector.inSubnet_onPeerConnected net now addr isInbound "").trans ?_
    rw [if_neg fun both => both.2 rfl]
    exact kept.unnamed
  · rfl
  · intro other info found
    replace found : (w.protector.peers.insert id _).lookup other = some info := found
    rw [lookup_insert] at found
    split at found
    next same =>
      cases found
      rw [← same, kept.filter_tracked absent]
      rfl
    next => exact kept.latest other info found
  · exact fun other member => Finmap.mem_insert.mpr (.inr member)

theorem Kept.recordPeerSource (source : Bytes) :
    Kept (w.step net cfg (.recordPeerSource id source)) := by
  rw [step, EclipseProtector.step, EclipseProtector.recordPeerSource]
  dsimp only
  split
  next =>
    have consistent : (w.protector.modify id ({ · with sourceID := source })).Consistent :=
      kept.consistent.modify (fun _ => rfl) (fun _ => rfl)
    refine ⟨⟨consistent.inbound, consistent.outbound, consistent.nodup, consistent.mem_iff⟩, ?_,
      fun other peer => ?_, fun peer info found => ?_, fun record member isTracked => ?_⟩
    · refine Eq.trans ?_ kept.unnamed
      exact congrArg (valueOr [] · "") (subnetPeers_modify _)
    · rw [recordsOf_append, fromSource, valueOr_addTo]
      have before := kept.sources other peer
      rw [fromSource] at before
      by_cases isSource : other = source
      · rw [if_pos isSource, count_append, before]
        split
        next isPeer =>
          dsimp only at isPeer
          simp [isPeer, isSource]
        next different => simp [different]
      · rw [if_neg isSource, before]
        split
        next => simp [Ne.symm isSource]
        next => rfl
    · rw [recordsOf_append]
      dsimp only at found
      rw [lookup_modify] at found
      split at found
      next same =>
        subst same
        obtain ⟨old, isOld, rfl⟩ := Option.map_eq_some_iff.mp found
        have member : id ∈ w.protector.peers := Finmap.mem_of_lookup_eq_some isOld
        simp [member]
      next different =>
        rw [if_neg different]
        exact kept.latest peer info found
    · rw [mem_modify]
      cases mem_append.mp member with
      | inl earlier => exact kept.tracked record earlier isTracked
      | inr last =>
        rw [mem_singleton] at last
        subst last
        simpa using isTracked
  next => exact kept

theorem Kept.onPeerMisbehavior : Kept (w.step net cfg (.onPeerMisbehavior id)) := by
  have consistent : (w.protector.modify id fun info =>
      { info with misbehaviors := info.misbehaviors + 1 }).Consistent :=
    kept.consistent.modify (fun _ => rfl) (fun _ => rfl)
  change Kept ⟨w.protector.onPeerMisbehavior id, w.records⟩
  rw [EclipseProtector.onPeerMisbehavior]
  split
  next =>
    apply kept.of_same_sources
    · exact ⟨consistent.inbound, consistent.outbound, consistent.nodup, consistent.mem_iff⟩
    · refine Eq.trans ?_ kept.unnamed
      exact congrArg (valueOr [] · "") (subnetPeers_modify _)
    · exact sourcePeers_modify _
    · intro peer info found
      dsimp only at found
      rw [lookup_modify] at found
      split at found
      next =>
        obtain ⟨old, isOld, rfl⟩ := Option.map_eq_some_iff.mp found
        exact kept.latest peer old isOld
      next => exact kept.latest peer info found
    · exact fun other => (mem_modify _ other).mpr
  next => exact kept

theorem Kept.trustPeer (now : Int) : Kept (w.step net cfg (.trustPeer id now)) := by
  have consistent := kept.consistent
  apply kept.of_same_sources
  · exact ⟨consistent.inbound, consistent.outbound, consistent.nodup, consistent.mem_iff⟩
  · exact kept.unnamed
  · rfl
  · exact kept.latest
  · exact fun _ member => member

/-- A disconnect takes off one mention of the peer under the source in its record. -/
theorem Kept.count_onPeerDisconnected (now : Int) (source : Bytes) (other : PeerID) :
    ((w.protector.onPeerDisconnected cfg now id).fromSource source).count other =
      (w.recordsOf other).countP (·.source = source) -
        if other = id ∧ (w.protector.peers.lookup id).map (·.sourceID) = some source ∧ source ≠ []
        then 1 else 0 := by
  rw [← kept.sources]
  cases found : w.protector.peers.lookup id with
  | none =>
    rw [onPeerDisconnected_of_none cfg now found]
    simp
  | some info =>
    rw [fromSource_onPeerDisconnected cfg now found]
    simp only [Option.map_some, Option.some_inj]
    split
    next isSource =>
      obtain ⟨rfl, named⟩ := isSource
      rw [count_erase]
      by_cases same : id = other
      · simp [same, named]
      · simp [same, Ne.symm same]
    next different =>
      rw [if_neg fun all => different ⟨all.2.1.symm, all.2.2⟩]
      rfl

/-- The source in the record of a tracked peer for which one was recorded while it was. -/
theorem Kept.sourceID_of_single {source : Bytes} (single : w.recordsOf id = [⟨id, source, true⟩]) :
    (w.protector.peers.lookup id).map (·.sourceID) = some source := by
  have inRecords : ⟨id, source, true⟩ ∈ w.recordsOf id := by
    rw [single]
    exact mem_singleton_self _
  obtain ⟨info, found⟩ := Finmap.mem_iff.mp
    (kept.tracked _ (mem_filter.mp inRecords).1 rfl)
  rw [found, Option.map_some, kept.latest id info found, single]
  rfl

theorem Kept.onPeerDisconnected {now : Int} (orderly : w.Orderly (.onPeerDisconnected id now)) :
    Kept (w.step net cfg (.onPeerDisconnected id now)) where
  consistent := kept.consistent.onPeerDisconnected cfg now
  unnamed := by
    change (w.protector.onPeerDisconnected cfg now id).inSubnet "" = []
    cases found : w.protector.peers.lookup id with
    | none =>
      rw [onPeerDisconnected_of_none cfg now found]
      exact kept.unnamed
    | some info =>
      rw [inSubnet_onPeerDisconnected cfg now found, if_neg fun both => both.2 rfl]
      exact kept.unnamed
  sources source other := by
    rw [step, recordsOf_filter]
    refine (kept.count_onPeerDisconnected cfg now source other).trans ?_
    by_cases isPeer : other = id
    · subst isPeer
      rw [if_pos rfl]
      cases orderly with
      | inl none =>
        rw [none]
        exact Nat.zero_sub _
      | inr single =>
        obtain ⟨recorded, single, named⟩ := single
        rw [kept.sourceID_of_single single, single]
        by_cases same : recorded = source
        · simp [same, same ▸ named]
        · simp [same]
    · rw [if_neg isPeer, if_neg fun all => isPeer all.1, Nat.sub_zero]
  latest other info found := by
    rw [step, recordsOf_filter]
    change (w.protector.onPeerDisconnected cfg now id).peers.lookup other = some info at found
    rw [EclipseProtector.peers_onPeerDisconnected, lookup_erase] at found
    split at found
    next => cases found
    next different =>
      rw [if_neg (Ne.symm different)]
      exact kept.latest other info found
  tracked record member isTracked := by
    change record.id ∈ (w.protector.onPeerDisconnected cfg now id).peers
    rw [EclipseProtector.peers_onPeerDisconnected, Finmap.mem_erase]
    obtain ⟨earlier, different⟩ := mem_filter.mp member
    exact ⟨by simpa using different, kept.tracked record earlier isTracked⟩

theorem Kept.forgets {now : Int} (orderly : w.Orderly (.onPeerDisconnected id now)) :
    (w.protector.step net cfg (.onPeerDisconnected id now)).Forgets id := by
  have after := kept.onPeerDisconnected net cfg orderly
  refine ⟨fun subnet => ?_, fun source => ?_⟩
  · by_cases named : subnet = ""
    · subst named
      exact fun listed => not_mem_nil (after.unnamed ▸ listed)
    · refine mt (after.consistent.mem_iff subnet named id).mp ?_
      change ¬((w.protector.onPeerDisconnected cfg now id).peers.lookup id).map (·.subnet) =
        some subnet
      rw [EclipseProtector.peers_onPeerDisconnected, Finmap.lookup_erase]
      exact Option.some_ne_none _ ∘ Eq.symm
  · rw [← count_eq_zero]
    refine (after.sources source id).trans ?_
    rw [step, recordsOf_filter, if_pos rfl]
    rfl

theorem Kept.orderly_of_forgets {now : Int}
    (forgets : (w.protector.onPeerDisconnected cfg now id).Forgets id) :
    w.Orderly (.onPeerDisconnected id now) := by
  have left : ∀ source, (w.recordsOf id).countP (·.source = source) ≤
      if (w.protector.peers.lookup id).map (·.sourceID) = some source ∧ source ≠ [] then 1
      else 0 := by
    intro source
    have none := count_eq_zero.mpr (forgets.sources source)
    rw [kept.count_onPeerDisconnected] at none
    simpa using Nat.sub_eq_zero_iff_le.mp none
  have recorded : ∀ record ∈ w.recordsOf id,
      (w.protector.peers.lookup id).map (·.sourceID) = some record.source ∧ record.source ≠ [] := by
    intro record member
    have counted : 0 < (w.recordsOf id).countP (·.source = record.source) :=
      countP_pos_iff.mpr ⟨record, member, by simp⟩
    by_contra unrecorded
    have atMost := left record.source
    rw [if_neg unrecorded] at atMost
    omega
  rw [Orderly]
  cases records : w.recordsOf id with
  | nil => exact .inl rfl
  | cons record rest =>
    rw [records] at left recorded
    obtain ⟨isSource, named⟩ := recorded record mem_cons_self
    have isPeer : record.id = id := by
      have member : record ∈ w.recordsOf id := records ▸ mem_cons_self
      simpa using (mem_filter.mp member).2
    have alone : rest = [] := by
      apply eq_nil_iff_forall_not_mem.mpr
      intro second member
      have same := (recorded second (mem_cons_of_mem _ member)).1.symm.trans isSource
      have counted : 0 < rest.countP (·.source = record.source) :=
        countP_pos_iff.mpr ⟨second, member, by simpa using same⟩
      have atMost := left record.source
      rw [if_pos ⟨isSource, named⟩, countP_cons_of_pos (by simp)] at atMost
      omega
    obtain ⟨info, found, isInfo⟩ := Option.map_eq_some_iff.mp isSource
    have latest := kept.latest id info found
    rw [isInfo, records, alone] at latest
    refine .inr ⟨record.source, ?_, named⟩
    cases tracked : record.tracked with
    | false => exact absurd (by simpa [tracked] using latest) named
    | true =>
      rw [alone, ← isPeer, ← tracked]

theorem Kept.step {call : EclipseCall} (orderly : w.Orderly call) : Kept (w.step net cfg call) := by
  cases call with
  | onPeerConnected id addr isInbound now =>
    exact kept.onPeerConnected net cfg orderly addr isInbound now
  | onPeerDisconnected id now => exact kept.onPeerDisconnected net cfg orderly
  | recordPeerSource id source => exact kept.recordPeerSource net cfg source
  | onPeerMisbehavior id => exact kept.onPeerMisbehavior net cfg
  | trustPeer id now => exact kept.trustPeer net cfg now

/-- The second connection of a tracked peer is counted, and no peer is tracked that was not. -/
theorem Kept.not_consistent (tracked : id ∈ w.protector.peers) (addr : String)
    (isInbound : Bool) (now : Int) :
    ¬(w.protector.onPeerConnected net now id addr isInbound).Consistent := by
  intro consistent
  obtain ⟨old, found⟩ := Finmap.mem_iff.mp tracked
  have before := kept.consistent
  have inbound := consistent.inbound
  have outbound := consistent.outbound
  rw [EclipseProtector.onPeerConnected] at inbound outbound
  dsimp only at inbound outbound
  have inboundCounted := @countValues_replace _ _ _ _ _ (·.isInbound) _ found
    ⟨net.extractSubnet addr, [], isInbound, now, 0⟩
  have outboundCounted := @countValues_replace _ _ _ _ _ (!·.isInbound) _ found
    ⟨net.extractSubnet addr, [], isInbound, now, 0⟩
  rw [before.inbound] at inbound
  rw [before.outbound] at outbound
  cases isInbound <;> cases isOld : old.isInbound <;> simp [isOld] at * <;> omega

theorem Kept.keeps_iff (call : EclipseCall) : w.Keeps net cfg call ↔ w.Orderly call := by
  constructor
  · intro keeps
    cases call with
    | onPeerConnected id addr isInbound now =>
      exact fun tracked => kept.not_consistent net tracked addr isInbound now keeps.1
    | onPeerDisconnected id now => exact kept.orderly_of_forgets cfg keeps.2
    | recordPeerSource | onPeerMisbehavior | trustPeer => trivial
  · intro orderly
    refine ⟨(kept.step net cfg orderly).consistent, ?_⟩
    cases call with
    | onPeerDisconnected id now => exact kept.forgets net cfg orderly
    | onPeerConnected | recordPeerSource | onPeerMisbehavior | trustPeer => trivial

omit kept

/-- Whatever the calls, the counters and the lists of a new protector are right after each of them
in exactly the runs in which each of them is orderly. -/
theorem keeps_iff_orderly (net : NetPackage) (cfg : EclipseMitigationConfig)
    (calls : List EclipseCall) :
    Run.EveryStep (step net cfg) (Keeps net cfg) init calls ↔
      Run.EveryStep (step net cfg) Orderly init calls :=
  Run.everyStep_iff kept_init (fun _ call kept => kept.keeps_iff net cfg call)
    (fun _ _ kept => kept.step net cfg) calls

def oneAddressNet : NetPackage where
  splitHostPort addr := if addr = "10.0.0.1:26656" then some "10.0.0.1" else none
  -- An IPv4 address is returned in its form of sixteen bytes.
  parseIP host :=
    if host = "10.0.0.1" then some (replicate 10 0 ++ [255, 255, 10, 0, 0, 1]) else none
  to4 ip :=
    match ip.drop 12 with
    | [a, b, c, d] => if ip.take 12 = replicate 10 0 ++ [255, 255] then some (a, b, c, d) else none
    | _ => none
  ipString ip := "?" ++ String.ofList (ip.flatMap fun byte =>
    [Nat.digitChar (byte.toNat / 16), Nat.digitChar (byte.toNat % 16)])
  ipNetString ip ones :=
    ".".intercalate ([ip.1, ip.2.1, ip.2.2.1, ip.2.2.2].map (toString ·.toNat)) ++ "/" ++
      toString ones

/-- A peer that connects twice is counted and listed twice, and stays listed when it disconnects; so
does one whose source is recorded before it connects. -/
theorem listed_after_disconnect :
    let cfg : EclipseMitigationConfig := ⟨10, day⟩
    let connect : EclipseCall := .onPeerConnected "peer" "10.0.0.1:26656" true 0
    let disconnect : EclipseCall := .onPeerDisconnected "peer" 1
    let twice := Run.after (step oneAddressNet cfg) init [connect, connect]
    let left := Run.after (step oneAddressNet cfg) init [connect, connect, disconnect]
    let named := Run.after (step oneAddressNet cfg) init
      [.recordPeerSource "peer" [7], connect, disconnect]
    twice.protector.inboundCount = 2 ∧ countValues (·.isInbound) twice.protector.peers = 1 ∧
      left.protector.inSubnet "10.0.0.0/24" = ["peer"] ∧
      named.protector.fromSource [7] = ["peer"] := by
  decide +kernel

end Watched

end Blockberry.Security
