import Mathlib
import Blockberry.Lib.Loop
import Blockberry.Pex.Persistence

/-!
# The limit of the address book

`AddPeer` evicts one peer from a full book, and `SetMaxAddresses` evicts until the book is small
enough. Both search for the oldest peer that is not a seed, and go on as if one was found. There is
none if all are seeds or seen at the largest time, and a peer with the empty ID is taken for none.
Each loop over a map has its own iteration.
-/

namespace Blockberry.Pex

open FiniteMap Loop AddressBook Int64 Finset List

/-- An order for every map that a loop can visit. -/
structure Iteration where
  order : VisitOrder
  enumerates : ∀ peers, Enumerates (order peers) peers

namespace AddressBook

variable (ab : AddressBook)

def size : Nat := ab.peers.keys.card

/-- The result of the search for the oldest peer. -/
def oldestID (order : VisitOrder) : PeerID :=
  ((order ab.peers).foldl (older ab.peers) ("", maxValue)).1

theorem evictOldest_eq (order : VisitOrder) : ab.evictOldest order =
      if ab.oldestID order ≠ "" then { ab with peers := ab.peers.erase (ab.oldestID order) }
      else ab := rfl

def pruneEntry (cutoff : Int64) (progress : (Finmap fun _ : PeerID => AddressEntry) × Nat)
    (id : PeerID) : (Finmap fun _ : PeerID => AddressEntry) × Nat :=
  match progress.1.lookup id with
  | none => progress
  | some entry =>
    if entry.isSeed then progress
    else if entry.lastSeen < cutoff then (progress.1.erase id, progress.2 + 1)
    else progress

/-- `Prune`, with the number of peers that it removes. The clock is in nanoseconds and the
times of the entries in seconds. -/
def prune (order : VisitOrder) (now : Int) (maxAge : Int64) : AddressBook × Nat :=
  let cutoff := Int64.ofInt ((now + (-maxAge).toInt) / 10 ^ 9)
  let pruned := (order ab.peers).foldl (pruneEntry cutoff) (ab.peers, 0)
  ({ ab with peers := pruned.1 }, pruned.2)

/-- One round of the loop of `SetMaxAddresses`. The state has the number of the round. -/
def evictRound (choices : Nat → Iteration) (max : Int) (state : Nat × AddressBook) :
    Round (Nat × AddressBook) AddressBook :=
  if max < state.2.size then
    .next (state.1 + 1, state.2.evictOldest (choices state.1).order)
  else .done state.2

/-- The call of `SetMaxAddresses` comes back and leaves this book. -/
def SetMaxAddressesEnds (choices : Nat → Iteration) (ab : AddressBook) (max : Int)
    (result : AddressBook) : Prop :=
  if 0 < max then Ends (evictRound choices max) (0, { ab with maxAddresses := max }) result
  else result = { ab with maxAddresses := max }

end AddressBook

/-! ## The search for the oldest peer -/

/-- A peer that is not a seed was last seen at this time. -/
def SeenAt (peers : Finmap fun _ : PeerID => AddressEntry) (id : PeerID) (time : Int64) : Prop :=
  ∃ entry, peers.lookup id = some entry ∧ entry.isSeed = false ∧ entry.lastSeen = time

structure FindsOldest (peers : Finmap fun _ : PeerID => AddressEntry) (order : List PeerID)
    (start result : PeerID × Int64) : Prop where
  found : result = start ∨ result.1 ∈ order ∧ SeenAt peers result.1 result.2 ∧ result.2 < start.2
  least : ∀ id ∈ order, ∀ time, SeenAt peers id time → result.2 ≤ time

namespace FindsOldest

variable {peers : Finmap fun _ : PeerID => AddressEntry} {start result : PeerID × Int64}
  {order : List PeerID}

theorem older (peers : Finmap fun _ : PeerID => AddressEntry) (start : PeerID × Int64)
    (id : PeerID) : FindsOldest peers [id] start (older peers start id) := by
  constructor <;> grind [older, SeenAt]

theorem append {middle : PeerID × Int64} {rest : List PeerID}
    (first : FindsOldest peers order start middle) (second : FindsOldest peers rest middle result) :
    FindsOldest peers (order ++ rest) start result := by
  obtain ⟨firstFound, firstLeast⟩ := first
  obtain ⟨secondFound, secondLeast⟩ := second
  constructor <;> grind

theorem foldl (peers : Finmap fun _ : PeerID => AddressEntry) (start : PeerID × Int64)
    (order : List PeerID) :
    FindsOldest peers order start (order.foldl (AddressBook.older peers) start) := by
  induction order generalizing start with
  | nil => exact ⟨.inl rfl, by simp⟩
  | cons first order ih => exact (older peers start first).append (ih _)

theorem eq_start (finds : FindsOldest peers order start result)
    (none : ∀ id time, SeenAt peers id time → start.2 ≤ time) : result = start := by
  rcases finds.found with same | ⟨-, seen, less⟩
  · exact same
  · exact absurd less (Int64.not_lt.mpr (none _ _ seen))

end FindsOldest

open FindsOldest

namespace AddressBook

variable {ab : AddressBook} {order : VisitOrder}

/-- The search finds nobody, or a peer that is not a seed with no older one beside it. -/
theorem oldestID_cases (ab : AddressBook) (iteration : Iteration) :
    ab.oldestID iteration.order = "" ∧
        (∀ id time, SeenAt ab.peers id time → maxValue ≤ time) ∨
      ∃ time, SeenAt ab.peers (ab.oldestID iteration.order) time ∧
        ∀ id later, SeenAt ab.peers id later → time ≤ later := by
  have finds := foldl ab.peers ("", maxValue) (iteration.order ab.peers)
  have least (id : PeerID) (time : Int64) (seen : SeenAt ab.peers id time) :=
    finds.least id (((iteration.enumerates ab.peers).mem_iff id).mpr
      (Finmap.mem_of_lookup_eq_some seen.choose_spec.1)) time seen
  rcases finds.found with same | ⟨-, seen, -⟩
  · rw [same] at least
    exact .inl ⟨congrArg Prod.fst same, least⟩
  · exact .inr ⟨_, seen, least⟩

theorem mem_of_oldestID (found : ab.oldestID order ≠ "") : ab.oldestID order ∈ ab.peers := by
  rcases (foldl ab.peers ("", maxValue) (order ab.peers)).found with
    same | ⟨-, ⟨entry, isEntry, -⟩, -⟩
  · exact absurd (congrArg Prod.fst same) found
  · exact Finmap.mem_of_lookup_eq_some isEntry

theorem size_evictOldest (found : ab.oldestID order ≠ "") :
    (ab.evictOldest order).size + 1 = ab.size := by
  rw [evictOldest_eq, if_pos found]
  exact card_keys_erase (mem_of_oldestID found)

/-! ## Changing the limit -/

/-- A peer with the empty ID hides those that are not older. -/
def searchBound (ab : AddressBook) : Int64 :=
  match ab.peers.lookup "" with
  | none => maxValue
  | some entry => if entry.isSeed then maxValue else entry.lastSeen

/-- The search can find an entry whatever the order is. -/
def evictable (ab : AddressBook) (entry : AddressEntry) : Bool :=
  !entry.isSeed && decide (entry.lastSeen < ab.searchBound)

def evictableCount (ab : AddressBook) : Nat := countValues ab.evictable ab.peers

theorem le_maxValue (time : Int64) : time ≤ maxValue :=
  le_iff_toInt_le.mpr (Int.le_of_lt_add_one time.toInt_lt)

theorem evictableCount_pos_iff :
    0 < ab.evictableCount ↔ ∃ id time, SeenAt ab.peers id time ∧ time < ab.searchBound := by
  rw [evictableCount, countValues, Multiset.card_pos_iff_exists_mem]
  simp only [Multiset.mem_filter, evictable, Bool.and_eq_true, Bool.not_eq_true', decide_eq_true_eq,
    SeenAt, ← Finmap.lookup_eq_some_iff, Sigma.exists]
  grind

theorem oldestID_of_pos (iteration : Iteration) (pos : 0 < ab.evictableCount) :
    ab.oldestID iteration.order ≠ "" ∧
      ∃ entry, ab.peers.lookup (ab.oldestID iteration.order) = some entry ∧
        ab.evictable entry = true := by
  obtain ⟨id, time, seen, less⟩ := evictableCount_pos_iff.mp pos
  have bound := le_maxValue ab.searchBound
  have cases := oldestID_cases ab iteration
  unfold evictable
  unfold searchBound at less bound ⊢
  grind [SeenAt]

/-- A round that can find an entry makes the book and the number of such entries smaller by
one. -/
theorem evictOldest_of_pos (iteration : Iteration) (pos : 0 < ab.evictableCount) :
    (ab.evictOldest iteration.order).size + 1 = ab.size ∧
      (ab.evictOldest iteration.order).evictableCount + 1 = ab.evictableCount := by
  obtain ⟨named, entry, isEntry, canEvict⟩ := oldestID_of_pos iteration pos
  refine ⟨size_evictOldest named, ?_⟩
  have same : (ab.evictOldest iteration.order).evictable = ab.evictable := by
    funext other
    rw [evictOldest_eq, if_pos named, evictable, evictable, searchBound, searchBound,
      Finmap.lookup_erase_ne (Ne.symm named)]
  rw [evictableCount, same, evictOldest_eq, if_pos named, evictableCount,
    ← countValues_erase isEntry, canEvict]
  rfl

/-- An iteration that visits the peer with the empty ID first. -/
def emptyFirst : Iteration where
  order peers :=
    if "" ∈ peers then "" :: (peers.keys.erase "").sort (· ≤ ·) else peers.keys.sort (· ≤ ·)
  enumerates peers := by
    split
    next present =>
      refine ⟨nodup_cons.mpr ⟨by simp, sort_nodup _ _⟩, fun key => ?_⟩
      rw [List.mem_cons, mem_sort, mem_erase, Finmap.mem_keys]
      grind
    next absent =>
      refine ⟨sort_nodup _ _, fun key => ?_⟩
      rw [mem_sort, Finmap.mem_keys]

variable (zero : ab.evictableCount = 0)

include zero

theorem searchBound_le (id : PeerID) (time : Int64)
    (seen : SeenAt ab.peers id time) : ab.searchBound ≤ time := by
  by_contra less
  have pos := evictableCount_pos_iff.mpr ⟨id, time, seen, Int64.not_le.mp less⟩
  omega

theorem oldestID_of_zero (isMax : ab.searchBound = maxValue) (order : VisitOrder) :
    ab.oldestID order = "" := by
  rw [oldestID, (foldl ab.peers _ _).eq_start]
  intro id time seen
  exact isMax ▸ searchBound_le zero id time seen

/-- Without entries to find nothing is evicted, unless a peer with the empty ID hides some. -/
theorem evictOldest_of_zero
    (isMax : ab.searchBound = maxValue) (order : VisitOrder) : ab.evictOldest order = ab := by
  rw [evictOldest_eq, if_neg (not_not.mpr (oldestID_of_zero zero isMax order))]

theorem evictOldest_emptyFirst : ab.evictOldest emptyFirst.order = ab := by
  by_cases isMax : ab.searchBound = maxValue
  · exact evictOldest_of_zero zero isMax _
  · have first : "" ∈ ab.peers ∧
        older ab.peers ("", maxValue) "" = ("", ab.searchBound) := by
      have bound := le_maxValue ab.searchBound
      unfold searchBound at isMax bound ⊢
      grind [older, Finmap.mem_of_lookup_eq_some]
    have none : ab.oldestID emptyFirst.order = "" := by
      simp only [oldestID, emptyFirst, if_pos first.1, List.foldl_cons, first.2]
      rw [(foldl ab.peers ("", ab.searchBound) _).eq_start (searchBound_le zero)]
    rw [evictOldest_eq, if_neg (not_not.mpr none)]

/-- Without entries below the bound, the search finds the first one that it visits with the time of
the peer with the empty ID. -/
theorem oldestID_of_hidden (below : ab.searchBound < maxValue) (order : VisitOrder)
    {before after : List PeerID} (split : order ab.peers = before ++ "" :: after)
    (isFirst : "" ∉ before) :
    ab.oldestID order ≠ "" ↔ ∃ id ∈ before, SeenAt ab.peers id ab.searchBound := by
  have least := searchBound_le zero
  have first := foldl ab.peers ("", maxValue) before
  rw [oldestID, split, foldl_append]
  generalize before.foldl (older ab.peers) ("", maxValue) = middle at first ⊢
  constructor
  · intro found
    by_contra noTie
    have later : ab.searchBound < middle.2 := by
      rcases first.found with rfl | ⟨inBefore, seen, -⟩
      · exact below
      · refine Int64.lt_of_le_of_ne (least _ _ seen) fun same => ?_
        exact noTie ⟨middle.1, inBefore, same ▸ seen⟩
    have isEmpty : older ab.peers middle "" = ("", ab.searchBound) := by
      unfold searchBound at below later ⊢
      grind [older]
    have stays := (foldl ab.peers ("", ab.searchBound) after).eq_start least
    rw [List.foldl_cons, isEmpty, stays] at found
    exact found rfl
  · rintro ⟨id, inBefore, seen⟩
    have atBound := first.least id inBefore _ seen
    have second := foldl ab.peers middle ("" :: after)
    generalize ("" :: after).foldl (older ab.peers) middle = result at second ⊢
    rcases first.found with rfl | ⟨middleBefore, -, -⟩
    · exact absurd below (Int64.not_lt.mpr atBound)
    · rcases second.found with rfl | ⟨-, seenResult, less⟩
      · exact fun same => isFirst (same ▸ middleBefore)
      · have notLess := least _ _ seenResult
        exact absurd (Int64.lt_of_le_of_lt notLess less) (Int64.not_lt.mpr atBound)

omit zero

def FindsPeer (ab : AddressBook) (order : VisitOrder) : Prop :=
  0 < ab.evictableCount ∨ ab.searchBound < maxValue ∧
    ∃ id ∈ (order ab.peers).takeWhile (· ≠ ""), SeenAt ab.peers id ab.searchBound

theorem oldestID_ne_iff (iteration : Iteration) :
    ab.oldestID iteration.order ≠ "" ↔ ab.FindsPeer iteration.order := by
  rcases Nat.eq_zero_or_pos ab.evictableCount with zero | pos
  · rw [FindsPeer, or_iff_right (by omega)]
    by_cases below : ab.searchBound < maxValue
    · have present : "" ∈ ab.peers := by
        unfold searchBound at below
        grind [Finmap.mem_of_lookup_eq_some]
      obtain ⟨before, after, split, isFirst⟩ :=
        eq_append_cons_of_mem (((iteration.enumerates ab.peers).mem_iff "").mpr present)
      have visited : (iteration.order ab.peers).takeWhile (· ≠ "") = before := by
        rw [split, takeWhile_append_of_pos (by grind), takeWhile_cons_of_neg (by simp),
          append_nil]
      rw [oldestID_of_hidden zero below _ split isFirst, visited, and_iff_right below]
    · have isMax : ab.searchBound = maxValue :=
        Int64.le_antisymm (le_maxValue _) (Int64.not_lt.mp below)
      exact iff_of_false (not_not.mpr (oldestID_of_zero zero isMax _)) fun both => below both.1
  · exact iff_of_true (oldestID_of_pos iteration pos).1 (.inl pos)

/-- The peers above the limit can all be found. -/
def Enough (max : Int) (ab : AddressBook) : Prop := (ab.size : Int) ≤ max + ab.evictableCount

section Rounds

variable {max : Int} {choices : Nat → Iteration}

theorem Enough.evictOldest (enough : Enough max ab) (tooMany : max < ab.size)
    (iteration : Iteration) :
    Enough max (ab.evictOldest iteration.order) ∧
      (ab.evictOldest iteration.order).size < ab.size := by
  rw [Enough] at enough ⊢
  have evicted := @evictOldest_of_pos ab iteration (by omega)
  generalize ab.evictOldest iteration.order = later at evicted ⊢
  omega

theorem not_enough_evictOldest (notEnough : ¬Enough max ab) :
    ¬Enough max (ab.evictOldest emptyFirst.order) := by
  rcases Nat.eq_zero_or_pos ab.evictableCount with zero | pos
  · rwa [evictOldest_emptyFirst zero]
  · have evicted := evictOldest_of_pos emptyFirst pos
    rw [Enough] at notEnough ⊢
    generalize ab.evictOldest emptyFirst.order = later at evicted ⊢
    omega

theorem ends_of_enough (enough : Enough max ab) (start : Nat) :
    ∃ result, Ends (evictRound choices max) (start, ab) result ∧ (result.size : Int) ≤ max := by
  refine exists_ends (fun state => Enough max state.2) (fun state => state.2.size) ?_ ?_
  · intro state holds
    rw [evictRound]
    split
    next tooMany => exact .inl ⟨_, rfl, holds.evictOldest tooMany (choices state.1)⟩
    next notTooMany => exact .inr ⟨_, rfl, not_lt.mp notTooMany⟩
  · exact enough

theorem not_ends_of_not_enough (notEnough : ¬Enough max ab) (start : Nat) (result : AddressBook) :
    ¬Ends (evictRound (fun _ => emptyFirst) max) (start, ab) result := by
  refine not_ends (fun state => ¬Enough max state.2) ?_ ?_ result
  · intro state holds
    have tooMany : max < state.2.size := by
      rw [Enough] at holds
      omega
    rw [evictRound, if_pos tooMany]
    exact ⟨_, rfl, not_enough_evictOldest holds⟩
  · exact notEnough

end Rounds

/-- Changing the limit comes back, whatever the orders of the loops are, exactly if the new limit
is not positive or the peers above it can all be found. -/
theorem setMaxAddressesEnds_iff_evictable (ab : AddressBook) (max : Int) :
    (∀ choices, ∃ result, SetMaxAddressesEnds choices ab max result) ↔
      max ≤ 0 ∨ (ab.size : Int) ≤ max + ab.evictableCount := by
  constructor
  · intro ends
    by_contra neither
    rw [not_or, not_le] at neither
    obtain ⟨result, ends⟩ := ends fun _ => emptyFirst
    rw [SetMaxAddressesEnds, if_pos neither.1] at ends
    exact not_ends_of_not_enough (show ¬Enough max { ab with maxAddresses := max } from neither.2)
      0 result ends
  · intro either choices
    simp only [SetMaxAddressesEnds]
    split
    next positive =>
      have enough : Enough max { ab with maxAddresses := max } :=
        either.resolve_left (not_le.mpr positive)
      exact (ends_of_enough enough 0).imp fun _ => And.left
    next => exact ⟨_, rfl⟩

end AddressBook

/-- The calls on a book. `Load` has the files that it finds. -/
inductive BookCall where
  | addPeer (iteration : Iteration) (now : Int64) (peerID : PeerID) (multiaddr nodeID : String)
      (latency : Int32)
  | markSeed (peerID : PeerID)
  | removePeer (peerID : PeerID)
  | updateLastSeen (now : Int64) (peerID : PeerID)
  | prune (iteration : Iteration) (now : Int) (maxAge : Int64)
  | load (files : Files)

/-- A call of `Load` that fails leaves the book as it is. -/
def AddressBook.call (json : BookJson) (ab : AddressBook) : BookCall → AddressBook
  | .addPeer iteration now peerID multiaddr nodeID latency =>
    ab.addPeer iteration.order now peerID multiaddr nodeID latency
  | .markSeed peerID => ab.markSeed peerID
  | .removePeer peerID => ab.removePeer peerID
  | .updateLastSeen now peerID => ab.updateLastSeen now peerID
  | .prune iteration now maxAge => (ab.prune iteration.order now maxAge).1
  | .load files => (load json files ab).toOption.getD ab

/-- A book whose two peers are marked as seeds. -/
def twoSeeds (maxAddresses : Int) : AddressBook :=
  Run.after (AddressBook.call PlainBook.json) (.newAddressBookWithLimit "book" maxAddresses)
    [.addPeer AddressBook.emptyFirst 1 "a" "/a" "a" 0, .markSeed "a",
      .addPeer AddressBook.emptyFirst 1 "b" "/b" "b" 0, .markSeed "b"]

/-- A limit of one for two seeds is never reached. -/
theorem not_setMaxAddressesEnds_twoSeeds :
    (twoSeeds 0).size = 2 ∧
      ∀ choices result, ¬AddressBook.SetMaxAddressesEnds choices (twoSeeds 0) 1 result := by
  have kept (order : VisitOrder) : ({ twoSeeds 0 with maxAddresses := 1 } : AddressBook).evictOldest
      order = { twoSeeds 0 with maxAddresses := 1 } :=
    evictOldest_of_zero (by decide +kernel) (by decide +kernel) order
  have tooMany : 1 < (({ twoSeeds 0 with maxAddresses := 1 } : AddressBook).size : Int) := by
    decide +kernel
  refine ⟨by decide +kernel, fun choices result ends => ?_⟩
  rw [SetMaxAddressesEnds, if_pos (by decide)] at ends
  refine not_ends (fun state => state.2 = { twoSeeds 0 with maxAddresses := 1 }) ?_ rfl result ends
  rintro ⟨round, _⟩ rfl
  rw [evictRound, if_pos tooMany]
  exact ⟨_, rfl, kept _⟩

namespace AddressBook

variable {json : BookJson} {ab : AddressBook} {iteration : Iteration} {id peerID : PeerID}

def IsSeed (ab : AddressBook) (id : PeerID) : Prop :=
  ∃ entry, ab.peers.lookup id = some entry ∧ entry.isSeed = true

/-- One of the peers that are not seeds, and none of them was seen before it. -/
def IsOldest (ab : AddressBook) (id : PeerID) : Prop :=
  ∃ time, SeenAt ab.peers id time ∧ ∀ other later, SeenAt ab.peers other later → time ≤ later

section Modify

variable {change : AddressEntry → AddressEntry}

theorem size_modify : (ab.modify peerID change).size = ab.size := by
  rw [modify]
  split
  next => rfl
  next entry found => exact card_keys_insert_of_mem (Finmap.mem_of_lookup_eq_some found) _

theorem isSeed_modify (keeps : ∀ entry, entry.isSeed = true → (change entry).isSeed = true)
    (seed : ab.IsSeed id) : (ab.modify peerID change).IsSeed id := by
  unfold IsSeed modify at *
  grind [lookup_insert]

end Modify

section AddPeer

variable {now : Int64} {multiaddr nodeID : String} {latency : Int32}

/-- A full book tries to make room for a new peer. -/
def room (ab : AddressBook) (order : VisitOrder) : AddressBook :=
  if 0 < ab.maxAddresses ∧ ab.maxAddresses ≤ ab.peers.keys.card then ab.evictOldest order else ab

theorem addPeer_of_lookup {entry : AddressEntry} (found : ab.peers.lookup peerID = some entry) :
    ab.addPeer iteration.order now peerID multiaddr nodeID latency = ab.modify peerID
        ({ · with multiaddr, nodeID, lastSeen := now, latency, attemptCount := 0 }) := by
  rw [addPeer, modify, found]

theorem addPeer_of_notMem (absent : peerID ∉ ab.peers) :
    ab.addPeer iteration.order now peerID multiaddr nodeID latency =
      { ab.room iteration.order with
        peers := (ab.room iteration.order).peers.insert peerID
          ⟨multiaddr, nodeID, now, latency, false, 0, 0⟩ } := by
  rw [addPeer, Finmap.lookup_eq_none.mpr absent, room]

theorem lookup_room (ab : AddressBook) (iteration : Iteration) (id : PeerID) :
    (ab.room iteration.order).peers.lookup id = ab.peers.lookup id ∨
      (ab.room iteration.order).peers.lookup id = none ∧ ab.IsOldest id := by
  have cases := oldestID_cases ab iteration
  rw [room, evictOldest_eq]
  unfold IsOldest
  grind [lookup_erase]

theorem lookup_addPeer {entry : AddressEntry} (found : ab.peers.lookup id = some entry) :
    (∃ later, (ab.addPeer iteration.order now peerID multiaddr nodeID latency).peers.lookup id =
      some later ∧ later.isSeed = entry.isSeed) ∨ ab.IsOldest id := by
  by_cases known : peerID ∈ ab.peers
  · obtain ⟨other, isOther⟩ := Finmap.mem_iff.mp known
    rw [addPeer_of_lookup isOther, modify]
    grind [lookup_insert]
  · have different : peerID ≠ id := by grind [Finmap.mem_of_lookup_eq_some]
    rw [addPeer_of_notMem known, lookup_insert, if_neg different]
    grind [lookup_room ab iteration id]

theorem not_isSeed_of_isOldest (oldest : ab.IsOldest id) : ¬ab.IsSeed id := by
  unfold IsOldest SeenAt IsSeed at *
  grind

theorem size_addPeer_le_iff (pos : 0 < ab.maxAddresses)
    (small : (ab.size : Int) ≤ ab.maxAddresses) :
    ((ab.addPeer iteration.order now peerID multiaddr nodeID latency).size : Int) ≤
        ab.maxAddresses ↔
      peerID ∈ ab.peers ∨ (ab.size : Int) < ab.maxAddresses ∨ ab.FindsPeer iteration.order := by
  rw [← oldestID_ne_iff]
  by_cases known : peerID ∈ ab.peers
  · obtain ⟨entry, found⟩ := Finmap.mem_iff.mp known
    rw [addPeer_of_lookup found, size_modify]
    exact iff_of_true small (.inl known)
  · have absent : peerID ∉ (ab.room iteration.order).peers := by
      rw [← Finmap.lookup_eq_none] at known ⊢
      grind [lookup_room ab iteration peerID]
    have bigger : (ab.addPeer iteration.order now peerID multiaddr nodeID latency).size =
        (ab.room iteration.order).size + 1 := by
      rw [addPeer_of_notMem known]
      exact card_keys_insert absent _
    rw [bigger, or_iff_right known, room]
    split
    next full =>
      have isFull : ¬(ab.size : Int) < ab.maxAddresses := not_lt.mpr full.2
      rw [or_iff_right isFull]
      by_cases found : ab.oldestID iteration.order = ""
      · rw [evictOldest_eq, if_neg (not_not.mpr found)]
        refine iff_of_false ?_ (not_not.mpr found)
        omega
      · rw [size_evictOldest found]
        exact iff_of_true small found
    next notFull =>
      rw [not_and, not_le] at notFull
      exact iff_of_true (notFull pos) (.inl (notFull pos))

end AddPeer

/-! ## Pruning and loading -/

/-- What pruning does to the peers: it keeps the seeds and adds nothing. -/
def Shrinks (before after : Finmap fun _ : PeerID => AddressEntry) : Prop :=
  after.keys.card ≤ before.keys.card ∧
    ∀ id entry, before.lookup id = some entry → entry.isSeed = true → after.lookup id = some entry

theorem shrinks_pruneEntry (cutoff : Int64)
    (progress : (Finmap fun _ : PeerID => AddressEntry) × Nat) (id : PeerID) :
    Shrinks progress.1 (pruneEntry cutoff progress id).1 := by
  rw [pruneEntry]
  split
  next => exact ⟨le_rfl, fun _ _ found _ => found⟩
  next entry found =>
    have smaller := card_keys_erase (Finmap.mem_of_lookup_eq_some found)
    unfold Shrinks
    grind [lookup_erase]

theorem shrinks_foldl (cutoff : Int64) (order : List PeerID)
    (progress : (Finmap fun _ : PeerID => AddressEntry) × Nat) :
    Shrinks progress.1 (order.foldl (pruneEntry cutoff) progress).1 := by
  induction order generalizing progress with
  | nil => exact ⟨le_rfl, fun _ _ found _ => found⟩
  | cons id order ih =>
    have first := shrinks_pruneEntry cutoff progress id
    have rest := ih (pruneEntry cutoff progress id)
    exact ⟨rest.1.trans first.1, fun query entry found isSeed =>
      rest.2 query entry (first.2 query entry found isSeed) isSeed⟩

/-- The data that `Load` reads. -/
def loadedData (json : BookJson) (files : Files) (ab : AddressBook) : Option AddressBookData :=
  if ab.path = "" then none else (files.lookup ab.path).bind json.unmarshal

/-- The different node IDs in the data, the empty one apart. -/
def nodeIDs (data : AddressBookData) : Finset String :=
  (data.peers.map AddressEntry.nodeID).toFinset.erase ""

theorem call_load (json : BookJson) (files : Files) (ab : AddressBook) :
    ab.call json (.load files) =
      match loadedData json files ab with
      | none => ab
      | some data => { ab with peers := data.peers.foldl loadEntry ∅, seeds := data.seeds } := by
  rw [call, load, loadedData]
  grind [Except.toOption]

theorem keys_foldl_loadEntry (entries : List AddressEntry)
    (peers : Finmap fun _ : PeerID => AddressEntry) :
    (entries.foldl loadEntry peers).keys =
      peers.keys ∪ (entries.map AddressEntry.nodeID).toFinset.erase "" := by
  induction entries generalizing peers with
  | nil => simp
  | cons entry entries ih =>
    rw [List.foldl_cons, ih, loadEntry, List.map_cons, List.toFinset_cons]
    split
    next empty => rw [empty, erase_insert_eq_erase]
    next named =>
      rw [keys_insert, erase_insert_of_ne named, insert_union, union_insert]
      rfl

/-! ## The limit over a run -/

def Fits (json : BookJson) (ab : AddressBook) : BookCall → Prop
  | .addPeer iteration _ peerID _ _ _ =>
    peerID ∈ ab.peers ∨ (ab.size : Int) < ab.maxAddresses ∨ ab.FindsPeer iteration.order
  | .load files =>
    ∀ data, loadedData json files ab = some data → ((nodeIDs data).card : Int) ≤ ab.maxAddresses
  | _ => True

/-- A seed is removed only by `RemovePeer` and `Load`. -/
def KeepsSeeds (json : BookJson) (ab : AddressBook) (call : BookCall) : Prop :=
  ∀ id, ab.IsSeed id →
    (ab.call json call).IsSeed id ∨ call = .removePeer id ∨ ∃ files, call = .load files

/-- A peer that `AddPeer` removes is an oldest one of those that are not seeds. -/
def EvictsOldest (json : BookJson) (ab : AddressBook) (call : BookCall) : Prop :=
  ∀ iteration now peerID multiaddr nodeID latency,
    call = .addPeer iteration now peerID multiaddr nodeID latency →
    ∀ id ∈ ab.peers, id ∉ (ab.call json call).peers → ab.IsOldest id

theorem maxAddresses_call (json : BookJson) (ab : AddressBook) (call : BookCall) :
    (ab.call json call).maxAddresses = ab.maxAddresses := by
  cases call with
  | addPeer | markSeed | updateLastSeen =>
    simp only [call, addPeer, evictOldest_eq, markSeed, updateLastSeen, modify]
    grind
  | removePeer | prune => rfl
  | load files =>
    rw [call_load]
    grind

theorem size_call_le_iff (pos : 0 < ab.maxAddresses) (small : (ab.size : Int) ≤ ab.maxAddresses)
    (call : BookCall) : ((ab.call json call).size : Int) ≤ ab.maxAddresses ↔ Fits json ab call := by
  cases call with
  | addPeer => exact size_addPeer_le_iff pos small
  | markSeed | updateLastSeen =>
    refine iff_of_true ?_ trivial
    simpa only [call, markSeed, updateLastSeen, size_modify] using small
  | removePeer peerID =>
    have smaller : (ab.peers.keys.erase peerID).card ≤ ab.size := card_erase_le
    refine iff_of_true ?_ trivial
    rw [call, removePeer, size, Finmap.keys_erase]
    omega
  | prune iteration now maxAge =>
    have pruned : (ab.prune iteration.order now maxAge).1.size ≤ ab.size :=
      (shrinks_foldl _ _ (ab.peers, 0)).1
    refine iff_of_true ?_ trivial
    rw [call]
    omega
  | load files =>
    rw [Fits, call_load]
    cases isData : loadedData json files ab with
    | none => exact iff_of_true small (by simp)
    | some data => simp [size, keys_foldl_loadEntry, nodeIDs]

theorem keepsSeeds_call (json : BookJson) (ab : AddressBook) (call : BookCall) :
    KeepsSeeds json ab call := by
  intro id seed
  obtain ⟨entry, found, isSeed⟩ := seed
  cases call with
  | addPeer iteration now peerID multiaddr nodeID latency =>
    rcases lookup_addPeer found with ⟨later, isLater, same⟩ | oldest
    · exact .inl ⟨later, isLater, same.trans isSeed⟩
    · exact absurd ⟨entry, found, isSeed⟩ (not_isSeed_of_isOldest oldest)
  | markSeed | updateLastSeen =>
    exact .inl (isSeed_modify (by simp_all) ⟨entry, found, isSeed⟩)
  | removePeer peerID =>
    rw [IsSeed, call, removePeer, lookup_erase]
    grind
  | prune iteration now maxAge =>
    exact .inl ⟨entry, (shrinks_foldl _ _ (ab.peers, 0)).2 id entry found isSeed, isSeed⟩
  | load files => exact .inr (.inr ⟨files, rfl⟩)

theorem evictsOldest_call (json : BookJson) (ab : AddressBook) (call : BookCall) :
    EvictsOldest json ab call := by
  rintro iteration now peerID multiaddr nodeID latency rfl id present gone
  obtain ⟨entry, found⟩ := Finmap.mem_iff.mp present
  rcases lookup_addPeer found with ⟨later, isLater, -⟩ | oldest
  · exact absurd (Finmap.mem_of_lookup_eq_some isLater) gone
  · exact oldest

end AddressBook

/-- A limit for addresses. -/
structure Limit where
  max : Int
  pos : 0 < max

/-- The size of a book stays within its limit exactly if every call of the run fits. Seeds are
removed only by `RemovePeer` and `Load`, and `AddPeer` evicts only an oldest other peer. -/
theorem size_le_iff_fits (json : BookJson) (path : String) (limit : Limit) (calls : List BookCall) :
    (Run.EveryStep (AddressBook.call json)
        (fun ab call => ((ab.call json call).size : Int) ≤ limit.max)
        (.newAddressBookWithLimit path limit.max) calls ↔
      Run.EveryStep (AddressBook.call json) (AddressBook.Fits json)
        (.newAddressBookWithLimit path limit.max) calls) ∧
    Run.EveryStep (AddressBook.call json) (AddressBook.KeepsSeeds json)
      (.newAddressBookWithLimit path limit.max) calls ∧
    Run.EveryStep (AddressBook.call json) (AddressBook.EvictsOldest json)
      (.newAddressBookWithLimit path limit.max) calls := by
  refine ⟨?_, Run.everyStep_of_forall (keepsSeeds_call json) calls,
    Run.everyStep_of_forall (evictsOldest_call json) calls⟩
  -- The invariant: the limit is the one the book was made with, and the book is within it.
  have agree (ab : AddressBook) (call : BookCall)
      (within : ab.maxAddresses = limit.max ∧ (ab.size : Int) ≤ limit.max) :
      ((ab.call json call).size : Int) ≤ limit.max ↔ ab.Fits json call := by
    obtain ⟨isMax, small⟩ := within
    rw [← isMax] at small ⊢
    exact size_call_le_iff (isMax ▸ limit.pos) small call
  have empty : ((newAddressBookWithLimit path limit.max).size : Int) ≤ limit.max :=
    limit.pos.le
  refine Run.everyStep_iff ⟨rfl, empty⟩ agree ?_ calls
  intro ab call within fits
  exact ⟨(maxAddresses_call json ab call).trans within.1,
    (agree ab call within).mpr fits⟩

/-- Three peers in a book with a limit of two: the first one makes room for the third. -/
theorem size_le_two : Run.EveryStep (AddressBook.call PlainBook.json)
    (fun ab call => ((ab.call PlainBook.json call).size : Int) ≤ 2)
    (.newAddressBookWithLimit "book" 2)
    [.addPeer emptyFirst 1 "a" "/a" "a" 0, .addPeer emptyFirst 2 "b" "/b" "b" 0,
      .addPeer emptyFirst 3 "c" "/c" "c" 0] := by
  apply (size_le_iff_fits PlainBook.json "book" ⟨2, by decide⟩ _).1.mpr
  refine ⟨.inr (.inl ?_), .inr (.inl ?_), .inr (.inr (.inl ?_)), trivial⟩
  · decide +kernel
  · decide +kernel
  · decide +kernel

/-- A third peer in a book with a limit of two, whose two peers are seeds. -/
theorem size_twoSeeds_addPeer :
    (twoSeeds 2).size = 2 ∧ ∀ iteration,
      ((twoSeeds 2).call PlainBook.json (.addPeer iteration 1 "c" "/c" "c" 0)).size = 3 := by
  have two : (twoSeeds 2).size = 2 := by decide +kernel
  refine ⟨two, fun iteration => ?_⟩
  have noRoom : (twoSeeds 2).room iteration.order = twoSeeds 2 := by
    rw [room]
    split
    next => exact evictOldest_of_zero (by decide +kernel) (by decide +kernel) _
    next => rfl
  have absent : "c" ∉ (twoSeeds 2).peers := by decide +kernel
  rw [call, addPeer_of_notMem absent, noRoom]
  exact (card_keys_insert absent _).trans (congrArg (· + 1) two)

end Blockberry.Pex
