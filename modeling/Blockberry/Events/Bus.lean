import Blockberry.Lib.FiniteMap
import Blockberry.Lib.Strings
import Blockberry.Events.Query

/-!
# The event bus

A subscription is kept under the subscriber and the text of the query, joined by a colon.
Two requests are told apart exactly if these keys differ, and different requests can have
the same key: the colon may occur in either part, and different queries can have the same
text.
-/

namespace Blockberry.Events

open FiniteMap Finmap

structure EventBusConfig where
  maxSubscribers : Int
  maxSubscribersPerQuery : Int
  deriving DecidableEq, Repr

structure Subscription where
  subscriber : String
  query : Query

inductive BusError where
  | busNotRunning
  | subscriberExists
  | subscriberNotFound
  | tooManySubscribers
  deriving DecidableEq, Repr

structure Bus where
  config : EventBusConfig
  subscriptions : Finmap fun _ : String => Subscription
  running : Bool

namespace Bus

def newBusWithConfig (config : EventBusConfig) : Bus := ⟨config, ∅, false⟩

def subscriptionKey (subscriber : String) (query : Query) : String :=
  subscriber ++ ":" ++ query.text

variable (b : Bus)

def start : Bus := { b with running := true }

def stop : Bus :=
  if b.running then { b with running := false, subscriptions := ∅ } else b

def numSubscribers : Nat := b.subscriptions.keys.card

def numSubscribersForQuery (query : Query) : Nat :=
  (b.subscriptions.entries.filter fun entry => entry.2.query.text = query.text).card

/-- The subscriptions are at one of the limits that are set. -/
def full (query : Query) : Bool :=
  (0 < b.config.maxSubscribers ∧ b.config.maxSubscribers ≤ b.numSubscribers) ∨
    (0 < b.config.maxSubscribersPerQuery ∧
      b.config.maxSubscribersPerQuery ≤ b.numSubscribersForQuery query)

def subscribe (subscriber : String) (query : Query) : Bus × Option BusError :=
  if b.running = false then (b, some .busNotRunning)
  else if subscriptionKey subscriber query ∈ b.subscriptions then (b, some .subscriberExists)
  else if b.full query then (b, some .tooManySubscribers)
  else
    ({ b with subscriptions :=
        b.subscriptions.insert (subscriptionKey subscriber query) ⟨subscriber, query⟩ }, none)

def unsubscribe (subscriber : String) (query : Query) : Bus × Option BusError :=
  if subscriptionKey subscriber query ∈ b.subscriptions then
    ({ b with subscriptions := b.subscriptions.erase (subscriptionKey subscriber query) }, none)
  else (b, some .subscriberNotFound)

/-- The subscription of a request is in the bus. -/
def Active (subscriber : String) (query : Query) : Prop :=
  b.subscriptions.lookup (subscriptionKey subscriber query) = some ⟨subscriber, query⟩

end Bus

open Bus

structure Request where
  subscriber : String
  query : Query

namespace Request

def key (request : Request) : String := subscriptionKey request.subscriber request.query

def subscribe (request : Request) (b : Bus) : Bus × Option BusError :=
  b.subscribe request.subscriber request.query

def unsubscribe (request : Request) (b : Bus) : Bus × Option BusError :=
  b.unsubscribe request.subscriber request.query

end Request

/-- A running bus without limits. -/
structure OpenBus where
  bus : Bus
  running : bus.running = true
  unlimited : bus.config.maxSubscribers ≤ 0
  unlimitedPerQuery : bus.config.maxSubscribersPerQuery ≤ 0

/-- Two requests are granted, one after the other. -/
structure Granted (b : Bus) (first second : Request) : Prop where
  isFirst : (first.subscribe b).2 = none
  isSecond : (second.subscribe (first.subscribe b).1).2 = none

/-- Two requests are granted in either order, and the second subscription stays when the
first is unsubscribed. -/
structure Independent (b : Bus) (first second : Request) : Prop where
  granted : Granted b first second
  grantedSwapped : Granted b second first
  stays : (first.unsubscribe (second.subscribe (first.subscribe b).1).1).1.Active
    second.subscriber second.query
  staysSwapped : (first.unsubscribe (first.subscribe (second.subscribe b).1).1).1.Active
    second.subscriber second.query

namespace OpenBus

variable {b : OpenBus} {first second request other : Request}

theorem not_full (b : OpenBus) (query : Query) : b.bus.full query = false := by
  simp only [full, decide_eq_false_iff_not, not_or, not_and]
  exact ⟨fun positive => absurd b.unlimited (not_le.mpr positive),
    fun positive => absurd b.unlimitedPerQuery (not_le.mpr positive)⟩

def insert (b : OpenBus) (request : Request) : OpenBus where
  bus := { b.bus with
    subscriptions := b.bus.subscriptions.insert request.key ⟨request.subscriber, request.query⟩ }
  running := b.running
  unlimited := b.unlimited
  unlimitedPerQuery := b.unlimitedPerQuery

theorem subscribe_eq (b : OpenBus) (request : Request) : request.subscribe b.bus =
      if request.key ∈ b.bus.subscriptions then (b.bus, some .subscriberExists)
      else ((b.insert request).bus, none) := by
  have notStopped : ¬b.bus.running = false := by simp [b.running]
  rw [Request.subscribe, subscribe, if_neg notStopped, not_full]
  rfl

theorem subscribe_of_free (free : request.key ∉ b.bus.subscriptions) :
    request.subscribe b.bus = ((b.insert request).bus, none) := by
  rw [subscribe_eq, if_neg free]

theorem subscribe_of_taken (taken : request.key ∈ b.bus.subscriptions) :
    request.subscribe b.bus = (b.bus, some .subscriberExists) := by
  rw [subscribe_eq, if_pos taken]

theorem not_mem_insert (different : request.key ≠ other.key)
    (free : request.key ∉ b.bus.subscriptions) :
    request.key ∉ (b.insert other).bus.subscriptions := by
  intro taken
  exact (mem_insert.mp taken).elim different free

theorem granted_iff :
    Granted b.bus first second ↔ first.key ≠ second.key ∧ first.key ∉ b.bus.subscriptions ∧
      second.key ∉ b.bus.subscriptions := by
  by_cases taken : first.key ∈ b.bus.subscriptions
  · apply iff_of_false
    · intro granted
      have isFirst := granted.isFirst
      rw [subscribe_of_taken taken] at isFirst
      cases isFirst
    · exact fun free => free.2.1 taken
  · have mem_insert : second.key ∈ (b.insert first).bus.subscriptions ↔
        second.key = first.key ∨ second.key ∈ b.bus.subscriptions :=
      mem_insert
    by_cases isTaken : second.key ∈ (b.insert first).bus.subscriptions
    · apply iff_of_false
      · intro granted
        have isSecond := granted.isSecond
        rw [subscribe_of_free taken, subscribe_of_taken isTaken] at isSecond
        cases isSecond
      · rintro ⟨different, -, free⟩
        exact (mem_insert.mp isTaken).elim (fun same => different same.symm) free
    · apply iff_of_true
      · refine ⟨by rw [subscribe_of_free taken], ?_⟩
        rw [subscribe_of_free taken, subscribe_of_free isTaken]
      · rw [mem_insert, not_or] at isTaken
        exact ⟨fun same => isTaken.1 same.symm, taken, isTaken.2⟩

theorem active_insert : (b.insert request).bus.Active request.subscriber request.query :=
  lookup_insert _

theorem active_insert_of_ne (different : other.key ≠ request.key)
    (active : b.bus.Active request.subscriber request.query) :
    (b.insert other).bus.Active request.subscriber request.query :=
  (lookup_insert_of_ne _ (Ne.symm different)).trans active

end OpenBus

theorem Bus.Active.unsubscribe {b : Bus} {request other : Request}
    (active : b.Active request.subscriber request.query) (different : other.key ≠ request.key) :
    (other.unsubscribe b).1.Active request.subscriber request.query := by
  rw [Request.unsubscribe, Bus.unsubscribe]
  split
  next => exact (lookup_erase_ne (Ne.symm different)).trans active
  next => exact active

/-! ## Two requests -/

theorem OpenBus.independent_iff (b : OpenBus) (first second : Request) :
    Independent b.bus first second ↔ first.key ≠ second.key ∧ first.key ∉ b.bus.subscriptions ∧
        second.key ∉ b.bus.subscriptions := by
  constructor
  · intro independent
    exact granted_iff.mp independent.granted
  · rintro ⟨different, freeFirst, freeSecond⟩
    have secondAfter := not_mem_insert different.symm freeSecond
    have firstAfter := not_mem_insert different freeFirst
    constructor
    · exact granted_iff.mpr ⟨different, freeFirst, freeSecond⟩
    · exact granted_iff.mpr ⟨different.symm, freeSecond, freeFirst⟩
    · rw [subscribe_of_free freeFirst, subscribe_of_free secondAfter]
      exact active_insert.unsubscribe different
    · rw [subscribe_of_free freeSecond, subscribe_of_free firstAfter]
      exact (active_insert_of_ne different active_insert).unsubscribe different

theorem toList_key (request : Request) :
    request.key.toList = request.subscriber.toList ++ ':' :: request.query.text.toList := by
  simp [Request.key, subscriptionKey]

/-- Without colons in the subscribers a key has the subscriber before its first colon. -/
theorem key_eq_iff {first second : Request} (noColonFirst : ':' ∉ first.subscriber.toList)
    (noColonSecond : ':' ∉ second.subscriber.toList) :
    first.key = second.key ↔
      first.subscriber = second.subscriber ∧ first.query.text = second.query.text := by
  constructor
  · intro same
    have parts := Strings.cut_singleton noColonFirst first.query.text.toList
    rw [← toList_key, same, toList_key, Strings.cut_singleton noColonSecond] at parts
    have components := Prod.mk.inj (Option.some.inj parts)
    exact ⟨String.toList_inj.mp components.1.symm, String.toList_inj.mp components.2.symm⟩
  · rintro ⟨sameSubscriber, sameText⟩
    rw [Request.key, Request.key, subscriptionKey, subscriptionKey, sameSubscriber, sameText]

/-- Two requests are independent exactly if their keys are different and not in use. For
subscribers without colons the keys are the same exactly if the subscribers and the texts of
the queries are. -/
theorem independent_iff_keys (b : OpenBus) (first second : Request) :
    (Independent b.bus first second ↔
      first.key ≠ second.key ∧ first.key ∉ b.bus.subscriptions ∧
        second.key ∉ b.bus.subscriptions) ∧
    (':' ∉ first.subscriber.toList → ':' ∉ second.subscriber.toList →
      (first.key = second.key ↔
        first.subscriber = second.subscriber ∧ first.query.text = second.query.text)) :=
  ⟨b.independent_iff first second, fun noColonFirst noColonSecond =>
    key_eq_iff noColonFirst noColonSecond⟩

/-- A running bus without subscriptions. -/
def idle : Bus := (newBusWithConfig ⟨0, 0⟩).start

/-- The bus of `idle` and two subscribers of the same query. -/
theorem independent_two_subscribers :
    Independent idle ⟨"s", .eventKind "Tx"⟩ ⟨"t", .eventKind "Tx"⟩ := by
  let b : OpenBus := ⟨idle, rfl, le_rfl, le_rfl⟩
  apply (independent_iff_keys b ⟨"s", .eventKind "Tx"⟩ ⟨"t", .eventKind "Tx"⟩).1.mpr
  exact ⟨by decide +kernel, Finmap.notMem_empty, Finmap.notMem_empty⟩

/-- A query for the kind `Tx` and one for the attribute `kind` with the value `Tx` have the same
text, so the second request is refused; likewise for a subscriber whose name ends in what begins the
text of a query. -/
theorem same_text_refused :
    (Query.eventKind "Tx").isMatch ⟨"Tx", []⟩ = true ∧
      (Query.hasAttribute "kind" "Tx").isMatch ⟨"Tx", []⟩ = false ∧
      ((idle.subscribe "s" (.eventKind "Tx")).1.subscribe "s" (.hasAttribute "kind" "Tx")).2 =
        some .subscriberExists ∧
      ((idle.subscribe "s" (.eventKind "a:all")).1.subscribe "s:kind=a" .all).2 =
        some .subscriberExists := by
  decide +kernel

end Blockberry.Events
