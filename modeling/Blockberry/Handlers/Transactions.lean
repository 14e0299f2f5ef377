import Blockberry.Lib.NestedMap
import Blockberry.Lib.Trace
import Blockberry.P2P.Peers

/-!
# The transactions reactor

`TransactionsReactor` asks a peer for the transactions whose hashes it has announced, and remembers
which hashes it has asked for and when. The handlers take the lock several times; they are cut into
the sections between, and the sections of all handlers may be mixed in any order. What the mempool,
the clock, the encoder and the network answer is part of the event.
-/

namespace Blockberry.Transactions

open FiniteMap

def defaultMaxPendingAge : Int := 60 * 1000000000

def maxTransactionSize : Nat := 1024 * 1024

def penaltyInvalidTx : Int64 := 5

structure TransactionData where
  hash : Bytes
  data : Bytes
  deriving DecidableEq, Repr

structure TransactionsReactor where
  mempoolSet : Bool
  networkSet : Bool
  peerManagerSet : Bool
  maxPending : Int
  maxPendingAge : Int
  pendingRequests : Finmap fun _ : PeerID => Finmap fun _ : Bytes => Int

def newTransactionsReactor (mempoolSet networkSet peerManagerSet : Bool) :
    TransactionsReactor where
  mempoolSet
  networkSet
  peerManagerSet
  maxPending := 100
  maxPendingAge := defaultMaxPendingAge
  pendingRequests := ∅

inductive HandlerError where
  | invalidMessage
  | encoding (message : String)
  | sending (message : String)
  deriving DecidableEq, Repr

inductive Note where
  | requested (peerID : PeerID) (hashes : List Bytes)
  | answered (peerID : PeerID) (hash : Bytes)
  | expired (peerID : PeerID) (hash : Bytes)
  | disconnected (peerID : PeerID)
  | sendTransactionDataRequest (peerID : PeerID) (hashes : List Bytes)
  | addPenalty (peerID : PeerID) (points : Int64) (reason : P2P.PenaltyReason) (message : String)
  | addTx (tx : Bytes)
  | markTxReceived (peerID : PeerID) (hash : Bytes)
  | returned (err : Option HandlerError)
  deriving DecidableEq, Repr

/-- The rest of a handler between two of its sections. -/
inductive Suspended where
  | checking (peerID : PeerID) (hashes missing : List Bytes)
  | requesting (peerID : PeerID) (missing : List Bytes) (nonempty : missing ≠ [])
  | sending (peerID : PeerID) (toRequest : List Bytes)
  | answering (peerID : PeerID) (transactions : List TransactionData)

structure Outcome where
  reactor : TransactionsReactor
  notes : List Note := []
  suspended : Option Suspended := none

/-- The answers that a section gets. -/
structure Env where
  now : Int
  hasTx : Bytes → Bool
  addTxFails : Bytes → Bool
  encodeErr : Option String
  sendErr : Option String

/-- The loop of `sendTransactionDataRequest`: the hashes that are entered, and the pending requests
after it. -/
def addPending (maxPending now : Int) : List Bytes → (Finmap fun _ : Bytes => Int) →
    List Bytes × Finmap fun _ : Bytes => Int
  | [], pending => ([], pending)
  | hash :: hashes, pending =>
    if maxPending ≤ pending.keys.card then ([], pending)
    else if hash ∈ pending then addPending maxPending now hashes pending
    else
      let (toRequest, entered) := addPending maxPending now hashes (pending.insert hash now)
      (hash :: toRequest, entered)

/-- The inner loop of `cleanupStaleRequests`: the hashes that it deletes, and those that stay. -/
def expire (now maxPendingAge : Int) : List Bytes → (Finmap fun _ : Bytes => Int) →
    List Bytes × Finmap fun _ : Bytes => Int
  | [], pending => ([], pending)
  | hash :: hashes, pending =>
    if (pending.lookup hash).any fun requestTime => decide (now - requestTime > maxPendingAge) then
      let (expired, kept) := expire now maxPendingAge hashes (pending.erase hash)
      (hash :: expired, kept)
    else expire now maxPendingAge hashes pending

namespace TransactionsReactor

variable (r : TransactionsReactor)

variable (peerID : PeerID)

def hasPendingRequest (hash : Bytes) : Bool :=
  match r.pendingRequests.lookup peerID with
  | some pending => decide (hash ∈ pending)
  | none => false

/-- The section of `sendTransactionDataRequest` under the lock. -/
def trackRequests (now : Int) (peerID : PeerID) (hashes : List Bytes) :
    TransactionsReactor × List Bytes :=
  let (toRequest, pending) :=
    addPending r.maxPending now hashes ((r.pendingRequests.lookup peerID).getD ∅)
  ({ r with pendingRequests := r.pendingRequests.insert peerID pending }, toRequest)

def clearPendingRequest (hash : Bytes) : TransactionsReactor :=
  match r.pendingRequests.lookup peerID with
  | none => r
  | some pending =>
    { r with pendingRequests := NestedMap.putBack r.pendingRequests peerID (pending.erase hash) }

/-- One round of the outer loop of `cleanupStaleRequests`. -/
def cleanupPeer (now : Int) (peerID : PeerID) (hashes : List Bytes) :
    TransactionsReactor × List Note :=
  match r.pendingRequests.lookup peerID with
  | none => (r, [])
  | some pending =>
    let (expired, kept) := expire now r.maxPendingAge hashes pending
    ({ r with pendingRequests := NestedMap.putBack r.pendingRequests peerID kept },
      expired.map (.expired peerID))

/-- `cleanupStaleRequests`, which visits the peers and their hashes in some order. -/
def cleanupStaleRequests (now : Int) :
    TransactionsReactor → List (PeerID × List Bytes) → TransactionsReactor × List Note
  | r, [] => (r, [])
  | r, (peerID, hashes) :: order =>
    let (next, notes) := r.cleanupPeer now peerID hashes
    let (last, later) := cleanupStaleRequests now next order
    (last, notes ++ later)

def onPeerDisconnected : TransactionsReactor :=
  { r with pendingRequests := r.pendingRequests.erase peerID }

/-- `handleTransactionsResponse`; a message that does not unmarshal is none. -/
def handleTransactionsResponse (response : Option (List Bytes)) : Outcome :=
  match response with
  | none => { reactor := r, notes := [.returned (some .invalidMessage)] }
  | some hashes =>
    if !r.mempoolSet then { reactor := r, notes := [.returned none] }
    else { reactor := r, suspended := some (.checking peerID hashes []) }

/-- `handleTransactionDataResponse`; a message that does not unmarshal is none. -/
def handleTransactionDataResponse (response : Option (List TransactionData)) : Outcome :=
  match response with
  | none => { reactor := r, notes := [.returned (some .invalidMessage)] }
  | some transactions =>
    if !r.mempoolSet then { reactor := r, notes := [.returned none] }
    else { reactor := r, suspended := some (.answering peerID transactions) }

def penalize (message : String) : List Note :=
  if r.networkSet then [.addPenalty peerID penaltyInvalidTx .invalidTx message] else []

variable (hashTx : Bytes → Bytes)

/-- What happens to a transaction once its request is cleared. -/
def acceptTx (r : TransactionsReactor) (env : Env) (peerID : PeerID)
    (tx : TransactionData) : List Note :=
  if hashTx tx.data ≠ tx.hash then r.penalize peerID "transaction hash mismatch"
  else
    .addTx tx.data ::
      if !env.addTxFails tx.data && r.peerManagerSet then [.markTxReceived peerID tx.hash] else []

/-- One round of the loop of `handleTransactionDataResponse`. -/
def answerTx (r : TransactionsReactor) (env : Env) (peerID : PeerID)
    (tx : TransactionData) : TransactionsReactor × List Note :=
  if tx.hash.length = 0 || tx.data.length = 0 then (r, [])
  else if tx.data.length > maxTransactionSize then
    (r, r.penalize peerID "transaction too large")
  else
    (r.clearPendingRequest peerID tx.hash,
      .answered peerID tx.hash :: r.acceptTx hashTx env peerID tx)

def resume (r : TransactionsReactor) (env : Env) : Suspended → Outcome
  | .checking peerID [] missing =>
    if nonempty : missing ≠ [] then
      { reactor := r, suspended := some (.requesting peerID missing nonempty) }
    else { reactor := r, notes := [.returned none] }
  | .checking peerID (hash :: hashes) missing =>
    let skip := hash.length = 0 || env.hasTx hash || r.hasPendingRequest peerID hash
    { reactor := r
      suspended := some (.checking peerID hashes (if skip then missing else missing ++ [hash])) }
  | .requesting peerID missing _ =>
    if !r.networkSet then { reactor := r, notes := [.returned none] }
    else
      let (next, toRequest) := r.trackRequests env.now peerID missing
      if toRequest.length = 0 then { reactor := next, notes := [.returned none] }
      else
        { reactor := next
          notes := [.requested peerID toRequest]
          suspended := some (.sending peerID toRequest) }
  | .sending peerID toRequest =>
    match env.encodeErr with
    | some message => { reactor := r, notes := [.returned (some (.encoding message))] }
    | none =>
      { reactor := r
        notes := [.sendTransactionDataRequest peerID toRequest,
          .returned (env.sendErr.map .sending)] }
  | .answering _ [] => { reactor := r, notes := [.returned none] }
  | .answering peerID (tx :: transactions) =>
    let (next, notes) := r.answerTx hashTx env peerID tx
    { reactor := next, notes, suspended := some (.answering peerID transactions) }

end TransactionsReactor

/-- The reactor and the handlers that are between two sections. -/
structure System where
  reactor : TransactionsReactor
  tasks : List Suspended

/-- An event starts a handler, runs one of the two functions that have one section, or resumes the
handler at a position. -/
inductive Event where
  | handleTransactionsResponse (peerID : PeerID) (response : Option (List Bytes))
  | handleTransactionDataResponse (peerID : PeerID) (response : Option (List TransactionData))
  | cleanupStaleRequests (now : Int) (order : List (PeerID × List Bytes))
  | onPeerDisconnected (peerID : PeerID)
  | resume (position : Nat) (env : Env)

/-- The handlers that are not touched by an event. -/
def Event.others (sys : System) : Event → List Suspended
  | .resume position _ => sys.tasks.eraseIdx position
  | _ => sys.tasks

variable (hashTx : Bytes → Bytes)

def Event.outcome (sys : System) : Event → Outcome
  | .handleTransactionsResponse peerID response =>
    sys.reactor.handleTransactionsResponse peerID response
  | .handleTransactionDataResponse peerID response =>
    sys.reactor.handleTransactionDataResponse peerID response
  | .cleanupStaleRequests now order =>
    let (reactor, notes) := sys.reactor.cleanupStaleRequests now order
    { reactor, notes }
  | .onPeerDisconnected peerID =>
    { reactor := sys.reactor.onPeerDisconnected peerID, notes := [.disconnected peerID] }
  | .resume position env =>
    match sys.tasks[position]? with
    | some task => sys.reactor.resume hashTx env task
    | none => { reactor := sys.reactor }

def step (sys : System) (event : Event) : System where
  reactor := (event.outcome hashTx sys).reactor
  tasks := event.others sys ++ (event.outcome hashTx sys).suspended.toList

def emit (sys : System) (event : Event) : List Note :=
  (event.outcome hashTx sys).notes

end Blockberry.Transactions
