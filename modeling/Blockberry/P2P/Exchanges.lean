import Blockberry.Lib.FiniteMap
import Blockberry.Lib.Lru
import Blockberry.Types.Basic

/-!
# Blocks exchanged with peers

For every connected peer the peer manager remembers the heights of the blocks that were sent
to it and received from it, as many of each as its caches hold. A block is sent to the peers
that have it in neither.
-/

namespace Blockberry.P2P

open FiniteMap

def maxKnownBlocksPerPeer : Nat := 2000

/-- The caches of blocks in the state of a peer. -/
structure BlockExchange where
  blocksSent : LruCache Int64 maxKnownBlocksPerPeer
  blocksReceived : LruCache Int64 maxKnownBlocksPerPeer

namespace BlockExchange

def new : BlockExchange := ⟨.empty, .empty⟩

variable (state : BlockExchange)

variable (height : Int64)

def markBlockSent : BlockExchange :=
  { state with blocksSent := state.blocksSent.add height }

def markBlockReceived : BlockExchange :=
  { state with blocksReceived := state.blocksReceived.add height }

def hasBlock : Bool :=
  state.blocksSent.contains height || state.blocksReceived.contains height

def shouldSendBlock : Bool :=
  !state.blocksSent.contains height && !state.blocksReceived.contains height

theorem shouldSendBlock_eq : state.shouldSendBlock height = !state.hasBlock height :=
  (Bool.not_or _ _).symm

theorem hasBlock_new : new.hasBlock height = false := by
  rw [hasBlock, new, LruCache.contains_empty, Bool.or_false]

theorem hasBlock_of_markBlockSent {state : BlockExchange} {marked height : Int64}
    (has : (state.markBlockSent marked).hasBlock height = true) :
    height = marked ∨ state.hasBlock height = true := by
  rcases (Bool.or_eq_true _ _).mp has with sent | received
  · exact (LruCache.eq_or_contains_of_add sent).imp_right fun found => by
      rw [hasBlock, found, Bool.true_or]
  · exact Or.inr ((Bool.or_eq_true _ _).mpr (Or.inr received))

theorem hasBlock_of_markBlockReceived {state : BlockExchange} {marked height : Int64}
    (has : (state.markBlockReceived marked).hasBlock height = true) :
    height = marked ∨ state.hasBlock height = true := by
  rcases (Bool.or_eq_true _ _).mp has with sent | received
  · exact Or.inr ((Bool.or_eq_true _ _).mpr (Or.inl sent))
  · exact (LruCache.eq_or_contains_of_add received).imp_right fun found => by
      rw [hasBlock, found, Bool.or_true]

end BlockExchange

/-- The part of the peer manager that concerns blocks. -/
structure Exchanges where
  peers : Finmap fun _ : PeerID => BlockExchange

namespace Exchanges

/-- A peer that is not connected is an error, which the reactors ignore. -/
def modify (pm : Exchanges) (peerID : PeerID) (change : BlockExchange → BlockExchange) :
    Exchanges :=
  match pm.peers.lookup peerID with
  | none => pm
  | some state => ⟨pm.peers.insert peerID (change state)⟩

def markBlockSent (pm : Exchanges) (peerID : PeerID) (height : Int64) : Exchanges :=
  pm.modify peerID (·.markBlockSent height)

def markBlockReceived (pm : Exchanges) (peerID : PeerID) (height : Int64) : Exchanges :=
  pm.modify peerID (·.markBlockReceived height)

/-- `PeersToSendBlock`, which visits the peers in some order. -/
def peersToSendBlock (pm : Exchanges) (order : List PeerID) (height : Int64) : List PeerID :=
  order.filter fun peerID => (pm.peers.lookup peerID).any (·.shouldSendBlock height)

end Exchanges

end Blockberry.P2P
