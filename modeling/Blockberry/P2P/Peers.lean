import Blockberry.Lib.FiniteMap
import Blockberry.Lib.Run
import Blockberry.Types.Basic

/-!
# Connected peers and their penalties

The peer manager has a state for every connected peer, the scorer a record for every peer ever
penalized or banned. Penalty points are in both: those of the state go down by calls of
`DecayPenalties`, those of the record by the hours on the clock when it is next used. Times are in
nanoseconds; what does not matter for penalties is left out.
-/

namespace Blockberry.P2P

open FiniteMap

/-! ## The peer manager -/

structure PeerState where
  publicKey : Bytes
  penaltyPoints : Int64
  isOutbound : Bool
  deriving DecidableEq, Repr

def newPeerState (isOutbound : Bool) : PeerState where
  publicKey := []
  penaltyPoints := 0
  isOutbound

namespace PeerState

def addPenalty (state : PeerState) (points : Int64) : PeerState :=
  { state with penaltyPoints := state.penaltyPoints + points }

/-- Points that become negative are set to zero. -/
def lessPoints (points taken : Int64) : Int64 :=
  if points - taken < 0 then 0 else points - taken

def decayPenalty (state : PeerState) (points : Int64) : PeerState :=
  { state with penaltyPoints := lessPoints state.penaltyPoints points }

end PeerState

structure PeerManager where
  peers : Finmap fun _ : PeerID => PeerState

namespace PeerManager

def newPeerManager : PeerManager := ⟨∅⟩

variable (pm : PeerManager)

variable (peerID : PeerID)

def addPeer (isOutbound : Bool) : PeerManager :=
  if peerID ∈ pm.peers then pm else ⟨pm.peers.insert peerID (newPeerState isOutbound)⟩

def removePeer : PeerManager := ⟨pm.peers.erase peerID⟩

def getPeer : Option PeerState := pm.peers.lookup peerID

def outboundPeerCount : Nat :=
  (pm.peers.entries.filter fun entry => entry.2.isOutbound = true).card

def inboundPeerCount : Nat :=
  (pm.peers.entries.filter fun entry => entry.2.isOutbound = false).card

/-- The state of a connected peer is changed. -/
def modify (change : PeerState → PeerState) : PeerManager :=
  match pm.getPeer peerID with
  | none => pm
  | some state => ⟨pm.peers.insert peerID (change state)⟩

def setPublicKey (publicKey : Bytes) : PeerManager :=
  pm.modify peerID ({ · with publicKey := publicKey })

end PeerManager

/-! ## The scorer -/

def penaltyThresholdBan : Int64 := 100

def penaltyDecayRate : Int64 := 1

def hour : Int := 3600 * 1000000000

def banDurationBase : Int := hour

def banDurationMax : Int := 24 * hour

def maxEvents : Nat := 1000

inductive PenaltyReason where
  | invalidMessage
  | invalidBlock
  | invalidTx
  | timeout
  | duplicateMessage
  | protocolViolation
  | chainMismatch
  | versionMismatch
  deriving DecidableEq, Repr

structure PenaltyEvent where
  peerID : PeerID
  points : Int64
  reason : PenaltyReason
  message : String
  timestamp : Int
  deriving DecidableEq, Repr

/-- A time that was not set is `none`. -/
structure PenaltyRecord where
  points : Int64
  lastDecay : Int
  banCount : Int
  lastBanEnd : Option Int
  deriving DecidableEq, Repr

def newPenaltyRecord (now : Int) : PenaltyRecord where
  points := 0
  lastDecay := now
  banCount := 0
  lastBanEnd := none

/-- The whole hours of a duration, which the code takes from its number of hours as a
float. -/
structure WholeHours where
  count : Int → Int64
  count_zero : count 0 = 0

/-- The whole hours without the rounding of floats. -/
def exactHours : WholeHours where
  count elapsed := Int64.ofInt (elapsed / hour)
  count_zero := by decide

namespace PenaltyRecord

def hoursElapsed (hours : WholeHours) (now : Int) (record : PenaltyRecord) : Int64 :=
  hours.count (now - record.lastDecay)

def applyDecay (hours : WholeHours) (now : Int) (record : PenaltyRecord) : PenaltyRecord :=
  if 0 < record.hoursElapsed hours now then
    { record with
      points :=
        PeerState.lessPoints record.points (record.hoursElapsed hours now * penaltyDecayRate)
      lastDecay := now }
  else record

end PenaltyRecord

structure PeerScorer where
  penaltyHistory : Finmap fun _ : PeerID => PenaltyRecord
  banCounts : Finmap fun _ : PeerID => Int
  events : List PenaltyEvent

def getBanDuration (banCount : Int) : Int :=
  min (banDurationBase * 2 ^ (max 0 (min banCount 5)).toNat) banDurationMax

namespace PeerScorer

def newPeerScorer : PeerScorer := ⟨∅, ∅, []⟩

variable (ps : PeerScorer)

/-- The record of a peer, which is made if there is none. -/
def recordOf (now : Int) (peerID : PeerID) : PenaltyRecord :=
  (ps.penaltyHistory.lookup peerID).getD (newPenaltyRecord now)

def setRecord (peerID : PeerID) (record : PenaltyRecord) : PeerScorer :=
  { ps with penaltyHistory := ps.penaltyHistory.insert peerID record }

def logEvent (event : PenaltyEvent) : PeerScorer :=
  { ps with events := (ps.events ++ [event]).drop (ps.events.length + 1 - maxEvents) }

def getEffectivePenaltyPoints (hours : WholeHours) (ps : PeerScorer) (now : Int)
    (peerID : PeerID) : PeerScorer × Int64 :=
  match ps.penaltyHistory.lookup peerID with
  | none => (ps, 0)
  | some record =>
    (ps.setRecord peerID (record.applyDecay hours now), (record.applyDecay hours now).points)

def shouldBan (hours : WholeHours) (ps : PeerScorer) (now : Int) (peerID : PeerID) :
    PeerScorer × Bool :=
  let (ps, points) := ps.getEffectivePenaltyPoints hours now peerID
  (ps, penaltyThresholdBan ≤ points)

def recordBan (now : Int) (peerID : PeerID) : PeerScorer :=
  let record := ps.recordOf now peerID
  { ps.setRecord peerID
      { record with
        banCount := record.banCount + 1
        lastBanEnd := some (now + getBanDuration record.banCount) } with
    banCounts := ps.banCounts.insert peerID (valueOr 0 ps.banCounts peerID + 1) }

def resetBanCount (peerID : PeerID) : PeerScorer :=
  { ps with
    penaltyHistory :=
      match ps.penaltyHistory.lookup peerID with
      | none => ps.penaltyHistory
      | some record =>
        ps.penaltyHistory.insert peerID { record with banCount := 0, lastBanEnd := none }
    banCounts := ps.banCounts.erase peerID }

end PeerScorer

/-- The peer manager and the scorer that has it. -/
structure Peers where
  manager : PeerManager
  scorer : PeerScorer

namespace Peers

def new : Peers := ⟨.newPeerManager, .newPeerScorer⟩

def addPenalty (hours : WholeHours) (peers : Peers) (now : Int) (peerID : PeerID)
    (points : Int64) (reason : PenaltyReason) (message : String) : Peers :=
  let record := (peers.scorer.recordOf now peerID).applyDecay hours now
  { manager := peers.manager.modify peerID (·.addPenalty points)
    scorer :=
      (peers.scorer.setRecord peerID { record with points := record.points + points }).logEvent
        ⟨peerID, points, reason, message, now⟩ }

def getPenaltyPoints (hours : WholeHours) (peers : Peers) (now : Int) (peerID : PeerID) :
    Peers × Int64 :=
  match peers.manager.getPeer peerID with
  | some state => (peers, state.penaltyPoints)
  | none =>
    let (scorer, points) := peers.scorer.getEffectivePenaltyPoints hours now peerID
    ({ peers with scorer }, points)

def decayPenalties (peers : Peers) (points : Int64) : Peers :=
  { peers with manager := ⟨mapValues (·.decayPenalty points) peers.manager.peers⟩ }

end Peers

inductive PeerCall where
  | addPenalty (peerID : PeerID) (points : Int64) (reason : PenaltyReason) (message : String)
  | addPeer (peerID : PeerID) (isOutbound : Bool)
  | removePeer (peerID : PeerID)
  | decayPenalties
  | getPenaltyPoints (peerID : PeerID)
  | getEffectivePenaltyPoints (peerID : PeerID)
  | shouldBan (peerID : PeerID)
  | recordBan (peerID : PeerID)
  | resetBanCount (peerID : PeerID)
  deriving DecidableEq, Repr

structure Timed where
  now : Int
  call : PeerCall
  deriving DecidableEq, Repr

def Peers.step (hours : WholeHours) (peers : Peers) (timed : Timed) : Peers :=
  match timed.call with
  | .addPenalty peerID points reason message =>
    peers.addPenalty hours timed.now peerID points reason message
  | .addPeer peerID isOutbound => { peers with manager := peers.manager.addPeer peerID isOutbound }
  | .removePeer peerID => { peers with manager := peers.manager.removePeer peerID }
  | .decayPenalties => peers.decayPenalties penaltyDecayRate
  | .getPenaltyPoints peerID => (peers.getPenaltyPoints hours timed.now peerID).1
  | .getEffectivePenaltyPoints peerID =>
    { peers with scorer := (peers.scorer.getEffectivePenaltyPoints hours timed.now peerID).1 }
  | .shouldBan peerID => { peers with scorer := (peers.scorer.shouldBan hours timed.now peerID).1 }
  | .recordBan peerID => { peers with scorer := peers.scorer.recordBan timed.now peerID }
  | .resetBanCount peerID => { peers with scorer := peers.scorer.resetBanCount peerID }

end Blockberry.P2P
