import Blockberry.P2P.Peers

/-!
# The network

The network has the peers and a table of temporary bans. What it asks the underlying node to
do (to disconnect a peer, to refuse it for good) does not change its own state.
-/

namespace Blockberry.P2P

open FiniteMap Finmap

structure TempBanEntry where
  expiresAt : Int
  reason : String
  deriving DecidableEq, Repr

structure Network where
  peers : Peers
  tempBans : Finmap fun _ : PeerID => TempBanEntry

namespace Network

def newNetwork : Network := ⟨.new, ∅⟩

/-- The peer is taken out and the ban recorded. -/
def recordBan (n : Network) (now : Int) (peerID : PeerID) : Network :=
  { n with peers :=
    { manager := n.peers.manager.removePeer peerID
      scorer := n.peers.scorer.recordBan now peerID } }

variable (n : Network)

def blacklistPeer (now : Int) (peerID : PeerID) : Network := n.recordBan now peerID

def tempBanPeer (now : Int) (peerID : PeerID) (duration : Int) (reason : String) : Network :=
  { n with tempBans := n.tempBans.insert peerID ⟨now + duration, reason⟩ }.recordBan now peerID

def isTempBanned (now : Int) (peerID : PeerID) : Bool :=
  (n.tempBans.lookup peerID).any (now < ·.expiresAt)

def cleanupExpiredTempBans (now : Int) : Network :=
  { n with tempBans := filterValues (fun entry => now ≤ entry.expiresAt) n.tempBans }

def addPenalty (hours : WholeHours) (n : Network) (now : Int) (peerID : PeerID) (points : Int64)
    (reason : PenaltyReason) (message : String) : Network :=
  let peers := n.peers.addPenalty hours now peerID points reason message
  let (scorer, ban) := peers.scorer.shouldBan hours now peerID
  let n := { n with peers := { peers with scorer } }
  if ban then n.blacklistPeer now peerID else n

def onPeerConnected (peerID : PeerID) (isOutbound : Bool) : Network :=
  { n with peers := { n.peers with manager := n.peers.manager.addPeer peerID isOutbound } }

def onPeerDisconnected (peerID : PeerID) : Network :=
  { n with peers := { n.peers with manager := n.peers.manager.removePeer peerID } }

def HasPeer (peerID : PeerID) : Prop := peerID ∈ n.peers.manager.peers

variable {n : Network} {p peerID : PeerID} {now : Int}

theorem hasPeer_recordBan : (n.recordBan now peerID).HasPeer p ↔ p ≠ peerID ∧ n.HasPeer p :=
  mem_erase

theorem hasPeer_onPeerDisconnected :
    (n.onPeerDisconnected peerID).HasPeer p ↔ p ≠ peerID ∧ n.HasPeer p :=
  mem_erase

theorem hasPeer_tempBanPeer (duration : Int) (reason : String) :
    (n.tempBanPeer now peerID duration reason).HasPeer p ↔ p ≠ peerID ∧ n.HasPeer p :=
  mem_erase

theorem hasPeer_onPeerConnected (isOutbound : Bool) :
    (n.onPeerConnected peerID isOutbound).HasPeer p ↔ p = peerID ∨ n.HasPeer p := by
  rw [HasPeer, onPeerConnected, PeerManager.addPeer]
  split
  next present =>
    refine ⟨.inr, ?_⟩
    rintro (rfl | isPresent)
    · exact present
    · exact isPresent
  next => exact mem_insert

theorem mem_modify (pm : PeerManager) (change : PeerState → PeerState) :
    p ∈ (pm.modify peerID change).peers ↔ p ∈ pm.peers := by
  rw [PeerManager.modify]
  split
  next => rfl
  next state found =>
    have present := mem_of_lookup_eq_some found
    refine mem_insert.trans ⟨?_, .inr⟩
    rintro (rfl | isPresent)
    · exact present
    · exact isPresent

theorem hasPeer_of_addPenalty {hours : WholeHours} {points : Int64} {reason : PenaltyReason}
    {message : String}
    (present : (n.addPenalty hours now peerID points reason message).HasPeer p) : n.HasPeer p := by
  simp only [addPenalty] at present
  split at present
  next => exact (mem_modify _ _).mp (hasPeer_recordBan.mp present).2
  next => exact (mem_modify _ _).mp present

end Network

end Blockberry.P2P
