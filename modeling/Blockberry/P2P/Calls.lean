import Blockberry.BlockStore.Interface

/-!
# Calls of the reactors

What the block and sync reactors do outside their own state goes through the
block store, the network, the peer manager and the application's callbacks. A
handler returns the list of these calls in the order in which it makes them.
-/

namespace Blockberry

inductive PenaltyReason where
  | invalidBlock
  | protocolViolation
  deriving DecidableEq, Repr

def penaltyInvalidBlock : Int64 := 20

def penaltyProtocolViolation : Int64 := 50

inductive Call where
  | saveBlock (height : Int64) (hash data : Bytes) (err : Option StoreError)
  | addPenalty (peerID : PeerID) (points : Int64) (reason : PenaltyReason)
      (message : String)
  | markBlockReceived (peerID : PeerID) (height : Int64)
  | markBlockSent (peerID : PeerID) (height : Int64)
  | sendBlocksRequest (peerID : PeerID) (since : Int64)
  | sendBlockData (peerID : PeerID) (height : Int64) (hash data : Bytes)
  | onBlockReceived (height : Int64) (hash data : Bytes)
  | onSyncComplete
  deriving DecidableEq, Repr

end Blockberry
