import Blockberry.Events.Runtime

/-!
# The channels of the subscriptions

A step keeps the subscriptions and the marks of their cells, adds a subscription with a new cell,
or removes subscriptions and closes their cells. So the subscriptions of the map always have open
channels of their own.
-/

namespace Blockberry.Events

open FiniteMap Bus List Finmap List

namespace Memory

variable {m next : Memory} {key : String} {live : Live} {cell : Nat}

/-- Nothing that the invariant speaks of is changed. -/
structure Kept (m next : Memory) : Prop where
  subscriptions : next.subscriptions = m.subscriptions
  length : next.cells.length = m.cells.length
  closed : ∀ cell, next.isClosed cell = m.isClosed cell
  cancelled : ∀ cell, next.isCancelled cell = m.isCancelled cell

/-- One more subscription, with a new cell. -/
structure Added (m next : Memory) (key : String) (subscription : Subscription) : Prop where
  free : key ∉ m.subscriptions
  subscriptions : next.subscriptions = m.subscriptions.insert key ⟨subscription, m.cells.length⟩
  cells : next.cells = m.cells ++ [⟨[], false, false⟩]

/-- The cell belongs to a subscription that is to go. -/
def Owned (m : Memory) (gone : String → Prop) (cell : Nat) : Prop :=
  ∃ key live, gone key ∧ m.subscriptions.lookup key = some live ∧ live.cell = cell

/-- The subscriptions of some keys are removed, and their cells cancelled and closed. -/
structure Removed (m next : Memory) (gone : String → Prop) : Prop where
  length : next.cells.length = m.cells.length
  lookup_gone : ∀ key, gone key → next.subscriptions.lookup key = none
  lookup : ∀ key, ¬gone key → next.subscriptions.lookup key = m.subscriptions.lookup key
  closed : ∀ cell, next.isClosed cell = true ↔ m.isClosed cell = true ∨ m.Owned gone cell
  cancelled : ∀ cell, next.isCancelled cell = true ↔ m.isCancelled cell = true ∨ m.Owned gone cell

/-- The subscriptions have open channels, one each, and closed channels are marked. -/
structure Sound (m : Memory) : Prop where
  inRange : ∀ {key live}, m.subscriptions.lookup key = some live → live.cell < m.cells.length
  notClosed : ∀ {key live}, m.subscriptions.lookup key = some live → m.isClosed live.cell = false
  notCancelled : ∀ {key live},
    m.subscriptions.lookup key = some live → m.isCancelled live.cell = false
  injective : ∀ {first second live other}, m.subscriptions.lookup first = some live →
    m.subscriptions.lookup second = some other → live.cell = other.cell → first = second
  cancelled_of_closed : ∀ {cell}, m.isClosed cell = true → m.isCancelled cell = true

theorem Kept.refl (m : Memory) : Kept m m := ⟨rfl, rfl, fun _ => rfl, fun _ => rfl⟩

theorem Kept.trans {last : Memory} (first : Kept m next) (second : Kept next last) :
    Kept m last where
  subscriptions := second.subscriptions.trans first.subscriptions
  length := second.length.trans first.length
  closed cell := (second.closed cell).trans (first.closed cell)
  cancelled cell := (second.cancelled cell).trans (first.cancelled cell)

theorem Kept.sound (kept : Kept m next) (sound : Sound m) : Sound next where
  inRange found := by
    rw [kept.subscriptions] at found
    rw [kept.length]
    exact sound.inRange found
  notClosed found := by
    rw [kept.subscriptions] at found
    rw [kept.closed]
    exact sound.notClosed found
  notCancelled found := by
    rw [kept.subscriptions] at found
    rw [kept.cancelled]
    exact sound.notCancelled found
  injective := by
    rw [kept.subscriptions]
    exact sound.injective
  cancelled_of_closed isClosed := by
    rw [kept.closed] at isClosed
    rw [kept.cancelled]
    exact sound.cancelled_of_closed isClosed

namespace Added

variable {subscription : Subscription} (added : Added m next key subscription)

include added

theorem any_eq {p : Cell → Bool} (unmarked : p ⟨[], false, false⟩ = false) (cell : Nat) :
    next.cells[cell]?.any p = m.cells[cell]?.any p := by
  rw [added.cells, getElem?_append]
  split
  next => rfl
  next outside =>
    rw [getElem?_eq_none (not_lt.mp outside)]
    cases cell - m.cells.length with
    | zero => exact unmarked
    | succ index => rfl

theorem isClosed_eq (cell : Nat) :
    next.isClosed cell = m.isClosed cell :=
  added.any_eq rfl cell

theorem isCancelled_eq (cell : Nat) :
    next.isCancelled cell = m.isCancelled cell :=
  added.any_eq rfl cell

theorem lookup_eq_some {query : String} (found : next.subscriptions.lookup query = some live) :
    query = key ∧ live = ⟨subscription, m.cells.length⟩ ∨
      query ≠ key ∧ m.subscriptions.lookup query = some live := by
  rw [added.subscriptions] at found
  by_cases same : query = key
  · subst same
    rw [Finmap.lookup_insert] at found
    exact .inl ⟨rfl, (Option.some.inj found).symm⟩
  · rw [lookup_insert_of_ne _ same] at found
    exact .inr ⟨same, found⟩

theorem isClosed_new :
    next.isClosed m.cells.length = false := by
  rw [added.isClosed_eq, isClosed, getElem?_eq_none le_rfl]
  rfl

theorem isCancelled_new :
    next.isCancelled m.cells.length = false := by
  rw [added.isCancelled_eq, isCancelled, getElem?_eq_none le_rfl]
  rfl

theorem sound (sound : Sound m) : Sound next where
  inRange found := by
    have isLength : next.cells.length = m.cells.length + 1 := by
      rw [added.cells, length_append, length_singleton]
    rcases added.lookup_eq_some found with ⟨-, rfl⟩ | ⟨-, before⟩
    · simp [isLength]
    · have := sound.inRange before
      lia
  notClosed found := by
    rcases added.lookup_eq_some found with ⟨-, rfl⟩ | ⟨-, before⟩
    · exact added.isClosed_new
    · rw [added.isClosed_eq]
      exact sound.notClosed before
  notCancelled found := by
    rcases added.lookup_eq_some found with ⟨-, rfl⟩ | ⟨-, before⟩
    · exact added.isCancelled_new
    · rw [added.isCancelled_eq]
      exact sound.notCancelled before
  injective isFirst isSecond same := by
    rcases added.lookup_eq_some isFirst with ⟨rfl, rfl⟩ | ⟨-, before⟩
    · rcases added.lookup_eq_some isSecond with ⟨rfl, -⟩ | ⟨-, other⟩
      · rfl
      · exact absurd same (sound.inRange other).ne'
    · rcases added.lookup_eq_some isSecond with ⟨rfl, rfl⟩ | ⟨-, other⟩
      · exact absurd same (sound.inRange before).ne
      · exact sound.injective before other same
  cancelled_of_closed isClosed := by
    rw [added.isClosed_eq] at isClosed
    rw [added.isCancelled_eq]
    exact sound.cancelled_of_closed isClosed

end Added

namespace Removed

variable {gone : String → Prop}

/-- A subscription that is left was there before, and is not one of those that went. -/
theorem lookup_eq_some (removed : Removed m next gone)
    (found : next.subscriptions.lookup key = some live) :
    ¬gone key ∧ m.subscriptions.lookup key = some live := by
  have stays : ¬gone key := by
    intro isGone
    rw [removed.lookup_gone key isGone] at found
    cases found
  rw [removed.lookup key stays] at found
  exact ⟨stays, found⟩

theorem not_owned (sound : Sound m) (stays : ¬gone key)
    (found : m.subscriptions.lookup key = some live) : ¬m.Owned gone live.cell := by
  rintro ⟨other, owner, isGone, isOther, same⟩
  exact stays (sound.injective isOther found same ▸ isGone)

theorem sound (removed : Removed m next gone) (sound : Sound m) : Sound next where
  inRange found := by
    rw [removed.length]
    exact sound.inRange (removed.lookup_eq_some found).2
  notClosed found := by
    obtain ⟨stays, before⟩ := removed.lookup_eq_some found
    rw [← Bool.not_eq_true, removed.closed, not_or, Bool.not_eq_true]
    exact ⟨sound.notClosed before, not_owned sound stays before⟩
  notCancelled found := by
    obtain ⟨stays, before⟩ := removed.lookup_eq_some found
    rw [← Bool.not_eq_true, removed.cancelled, not_or, Bool.not_eq_true]
    exact ⟨sound.notCancelled before, not_owned sound stays before⟩
  injective isFirst isSecond same :=
    sound.injective (removed.lookup_eq_some isFirst).2 (removed.lookup_eq_some isSecond).2 same
  cancelled_of_closed isClosed := by
    rw [removed.cancelled]
    exact ((removed.closed _).mp isClosed).imp_left sound.cancelled_of_closed

end Removed

theorem any_modify (p : Cell → Bool) (change : Cell → Cell) (cells : List Cell) (index : Nat)
    (keeps : ∀ c, p (change c) = p c) (cell : Nat) :
    (cells.modify index change)[cell]?.any p = cells[cell]?.any p := by
  rw [getElem?_modify]
  cases cells[cell]? with
  | none => rfl
  | some c =>
    change p (if index = cell then change c else c) = p c
    split
    next => exact keeps c
    next => rfl

theorem Kept.buffer (m : Memory) (index : Nat) (change : List Event → List Event) : Kept m
      { m with cells := m.cells.modify index fun c => { c with buffer := change c.buffer } } where
  subscriptions := rfl
  length := length_modify ..
  closed := any_modify Cell.closed _ m.cells index fun _ => rfl
  cancelled := any_modify Cell.cancelled _ m.cells index fun _ => rfl

def shut (m : Memory) (cell : Nat) : Memory :=
  { m with cells := m.cells.modify cell ({ · with cancelled := true, closed := true }) }

theorem any_shut {p : Cell → Bool}
    (isMark : ∀ c : Cell, p { c with cancelled := true, closed := true } = true) (m : Memory)
    (index cell : Nat) :
    (m.shut index).cells[cell]?.any p = true ↔
      m.cells[cell]?.any p = true ∨ cell = index ∧ cell < m.cells.length := by
  rw [shut, getElem?_modify]
  cases found : m.cells[cell]? with
  | none =>
    have outside := getElem?_eq_none_iff.mp found
    simp [outside]
  | some c =>
    have inside := (List.getElem?_eq_some_iff.mp found).1
    by_cases same : index = cell
    · simp [same, isMark, inside]
    · simp [same, Ne.symm same]

theorem close_markCancelled (notClosed : m.isClosed cell = false) :
    (m.markCancelled cell).close cell = .ok (m.shut cell) := by
  have stillOpen : (m.markCancelled cell).isClosed cell = false := by
    rw [← notClosed]
    exact any_modify Cell.closed ({ · with cancelled := true }) m.cells cell (fun _ => rfl) cell
  rw [close, stillOpen, if_neg Bool.false_ne_true, markCancelled, shut]
  simp only [modify_modify_eq, Function.comp_def]

theorem cancelOnce_eq (notClosed : m.isClosed cell = false)
    (notCancelled : m.isCancelled cell = false) : m.cancelOnce cell = .ok (m.shut cell) := by
  rw [cancelOnce, notCancelled, if_neg Bool.false_ne_true, close_markCancelled notClosed]

theorem isClosed_shut (m : Memory) (index cell : Nat) : (m.shut index).isClosed cell = true ↔
      m.isClosed cell = true ∨ cell = index ∧ cell < m.cells.length :=
  any_shut (fun _ => rfl) m index cell

theorem isCancelled_shut (m : Memory) (index cell : Nat) : (m.shut index).isCancelled cell = true ↔
      m.isCancelled cell = true ∨ cell = index ∧ cell < m.cells.length :=
  any_shut (fun _ => rfl) m index cell

/-- The cells are cancelled and closed, one after the other. -/
def shutAll (m : Memory) (cells : List Nat) : Memory := cells.foldl shut m

@[simp] theorem subscriptions_shutAll (m : Memory) (cells : List Nat) :
    (m.shutAll cells).subscriptions = m.subscriptions := by
  induction cells generalizing m with
  | nil => rfl
  | cons cell cells ih => exact ih (m.shut cell)

theorem length_shut (m : Memory) (cell : Nat) : (m.shut cell).cells.length = m.cells.length :=
  length_modify ..

@[simp] theorem length_shutAll (m : Memory) (cells : List Nat) :
    (m.shutAll cells).cells.length = m.cells.length := by
  induction cells generalizing m with
  | nil => rfl
  | cons cell cells ih => exact (ih (m.shut cell)).trans (length_shut m cell)

theorem any_shutAll {p : Cell → Bool}
    (isMark : ∀ c : Cell, p { c with cancelled := true, closed := true } = true) (m : Memory)
    (cells : List Nat) (cell : Nat) :
    (m.shutAll cells).cells[cell]?.any p = true ↔
      m.cells[cell]?.any p = true ∨ cell ∈ cells ∧ cell < m.cells.length := by
  induction cells generalizing m with
  | nil => simp [shutAll]
  | cons first cells ih =>
    change ((m.shut first).shutAll cells).cells[cell]?.any p = true ↔ _
    rw [ih, any_shut isMark, length_shut, mem_cons, or_and_right, or_assoc]

theorem isClosed_shutAll (m : Memory) (cells : List Nat) (cell : Nat) :
    (m.shutAll cells).isClosed cell = true ↔
      m.isClosed cell = true ∨ cell ∈ cells ∧ cell < m.cells.length :=
  any_shutAll (fun _ => rfl) m cells cell

theorem isCancelled_shutAll (m : Memory) (cells : List Nat) (cell : Nat) :
    (m.shutAll cells).isCancelled cell = true ↔
      m.isCancelled cell = true ∨ cell ∈ cells ∧ cell < m.cells.length :=
  any_shutAll (fun _ => rfl) m cells cell

theorem foldlM_shut {close : Memory → Live → Except Panic Memory}
    (shuts : ∀ m live, m.isClosed live.cell = false → m.isCancelled live.cell = false →
      close m live = .ok (m.shut live.cell)) (lives : List Live) (m : Memory)
    (nodup : (lives.map Live.cell).Nodup)
    (areOpen : ∀ live ∈ lives, m.isClosed live.cell = false ∧ m.isCancelled live.cell = false) :
    lives.foldlM close m = .ok (m.shutAll (lives.map Live.cell)) := by
  induction lives generalizing m with
  | nil => rfl
  | cons first lives ih =>
    have isFirst := areOpen first mem_cons_self
    rw [map_cons, nodup_cons] at nodup
    rw [foldlM_cons, shuts m first isFirst.1 isFirst.2]
    apply ih (m.shut first.cell) nodup.2
    intro live member
    have isLive := areOpen live (mem_cons_of_mem _ member)
    have different : live.cell ≠ first.cell := by
      intro same
      exact nodup.1 (same ▸ mem_map_of_mem member)
    constructor
    · rw [← Bool.not_eq_true, isClosed_shut, isLive.1]
      simp [different]
    · rw [← Bool.not_eq_true, isCancelled_shut, isLive.2]
      simp [different]

variable {order : List String}

theorem mem_visited :
    live ∈ m.visited order ↔ ∃ key ∈ order, m.subscriptions.lookup key = some live :=
  mem_filterMap

theorem Sound.nodup_visited (sound : Sound m) (nodup : order.Nodup) :
    ((m.visited order).map Live.cell).Nodup := by
  induction order with
  | nil => exact nodup_nil
  | cons key order ih =>
    rw [nodup_cons] at nodup
    cases found : m.subscriptions.lookup key with
    | none =>
      simp only [visited, filterMap_cons, found]
      exact ih nodup.2
    | some live =>
      simp only [visited, filterMap_cons, found, map_cons, nodup_cons]
      refine ⟨?_, ih nodup.2⟩
      intro member
      obtain ⟨other, isVisited, same⟩ := mem_map.mp member
      obtain ⟨query, inOrder, isOther⟩ := mem_visited.mp isVisited
      exact nodup.1 (sound.injective found isOther same.symm ▸ inOrder)

theorem Sound.open_visited (sound : Sound m) :
    ∀ live ∈ m.visited order, m.isClosed live.cell = false ∧ m.isCancelled live.cell = false := by
  intro live member
  obtain ⟨key, -, found⟩ := mem_visited.mp member
  exact ⟨sound.notClosed found, sound.notCancelled found⟩

/-- Shutting the cells of some keys and removing them from the map. -/
theorem Sound.removed_shutAll (sound : Sound m) (order : List String) (gone : String → Prop)
    (map : Finmap fun _ : String => Live)
    (isGone : ∀ key ∈ m.subscriptions, gone key ↔ key ∈ order)
    (lookup_gone : ∀ key, gone key → map.lookup key = none)
    (lookup : ∀ key, ¬gone key → map.lookup key = m.subscriptions.lookup key) :
    Removed m { m.shutAll ((m.visited order).map Live.cell) with subscriptions := map } gone := by
  have owned_iff (cell : Nat) : cell ∈ (m.visited order).map Live.cell ∧ cell < m.cells.length ↔
      m.Owned gone cell := by
    constructor
    · intro both
      obtain ⟨live, member, same⟩ := mem_map.mp both.1
      obtain ⟨key, inOrder, found⟩ := mem_visited.mp member
      have inMap := mem_of_lookup_eq_some found
      exact ⟨key, live, (isGone key inMap).mpr inOrder, found, same⟩
    · rintro ⟨key, live, goes, found, rfl⟩
      have inMap := mem_of_lookup_eq_some found
      have inOrder := (isGone key inMap).mp goes
      exact ⟨mem_map_of_mem (mem_visited.mpr ⟨key, inOrder, found⟩), sound.inRange found⟩
  constructor
  · exact length_shutAll ..
  · exact lookup_gone
  · exact lookup
  · intro cell
    rw [← owned_iff]
    exact isClosed_shutAll ..
  · intro cell
    rw [← owned_iff]
    exact isCancelled_shutAll ..

/-! ## The sections under the lock -/

theorem subscribe_cases (m : Memory) (subscriber : String) (query : Query) :
    (∃ err, m.subscribe subscriber query = (m, .error err)) ∨
      ∃ next, m.subscribe subscriber query = (next, .ok m.cells.length) ∧
        Added m next (subscriptionKey subscriber query) ⟨subscriber, query⟩ := by
  rw [subscribe]
  split
  next => exact .inl ⟨_, rfl⟩
  next free =>
    split
    next => exact .inl ⟨_, rfl⟩
    next => exact .inr ⟨_, rfl, free, rfl, rfl⟩

theorem Sound.unsubscribe (sound : Sound m) (subscriber : String) (query : Query) :
    ∃ next err, m.unsubscribe subscriber query = .ok (next, err) ∧
      Removed m next (· = subscriptionKey subscriber query) := by
  rw [Memory.unsubscribe]
  cases found : m.subscriptions.lookup (subscriptionKey subscriber query) with
  | none =>
    refine ⟨m, some .subscriberNotFound, rfl, rfl, ?_, fun _ _ => rfl, ?_, ?_⟩
    · rintro key rfl
      exact found
    all_goals
      intro cell
      have notOwned : ¬m.Owned (· = subscriptionKey subscriber query) cell := by
        rintro ⟨key, live, rfl, isLive, -⟩
        rw [found] at isLive
        cases isLive
      exact (or_iff_left notOwned).symm
  | some live =>
    have shuts := cancelOnce_eq (sound.notClosed found) (sound.notCancelled found)
    refine ⟨_, none, by simp only [shuts]; rfl, ?_⟩
    have isVisited : m.visited [subscriptionKey subscriber query] = [live] := by
      simp only [visited, filterMap_cons, found, filterMap_nil]
    have removed := sound.removed_shutAll [subscriptionKey subscriber query]
      (· = subscriptionKey subscriber query)
      (m.subscriptions.erase (subscriptionKey subscriber query))
      (fun key _ => mem_singleton.symm)
      (fun key same => same ▸ lookup_erase _ _)
      (fun key different => lookup_erase_ne different)
    rwa [isVisited] at removed

theorem lookup_foldl_erase (keys : List String) (map : Finmap fun _ : String => Live)
    (key : String) :
    (keys.foldl (fun map key => map.erase key) map).lookup key =
      if key ∈ keys then none else map.lookup key := by
  induction keys generalizing map with
  | nil => rfl
  | cons first keys ih =>
    rw [foldl_cons, ih]
    by_cases later : key ∈ keys
    · simp [later]
    · by_cases same : key = first
      · subst same
        simp [later]
      · rw [lookup_erase_ne same]
        simp [later, same]

theorem Sound.unsubscribeAll (sound : Sound m) (subscriber : String)
    (enumerates : Enumerates order m.subscriptions) :
    ∃ next, m.unsubscribeAll subscriber order = .ok next ∧
      Removed m next (m.owns subscriber · = true) := by
  have shuts := foldlM_shut (fun m live => cancelOnce_eq)
    (m.visited (order.filter (m.owns subscriber))) m
    (sound.nodup_visited (enumerates.nodup.filter _)) sound.open_visited
  refine ⟨_, by rw [Memory.unsubscribeAll, shuts]; rfl, ?_⟩
  have inOrder {key : String} (isOwn : m.owns subscriber key = true) : key ∈ order := by
    rw [enumerates.mem_iff]
    obtain ⟨live, found, -⟩ := (Option.any_eq_true ..).mp isOwn
    exact mem_of_lookup_eq_some found
  have mem_filter_iff (key : String) :
      key ∈ order.filter (m.owns subscriber) ↔ m.owns subscriber key = true := by
    rw [mem_filter]
    exact and_iff_right_of_imp inOrder
  apply sound.removed_shutAll
  · intro key _
    exact (mem_filter_iff key).symm
  · intro key isOwn
    rw [subscriptions_shutAll, lookup_foldl_erase, if_pos ((mem_filter_iff key).mpr isOwn)]
  · intro key isOther
    rw [subscriptions_shutAll, lookup_foldl_erase, if_neg (mt (mem_filter_iff key).mp isOther)]

theorem Sound.clear (sound : Sound m) (enumerates : Enumerates order m.subscriptions) :
    ∃ next, m.clear order = .ok next ∧ Removed m next fun _ => True := by
  have shuts := foldlM_shut (fun m live notClosed _ => close_markCancelled notClosed)
    (m.visited order) m (sound.nodup_visited enumerates.nodup) sound.open_visited
  refine ⟨_, by rw [Memory.clear, shuts]; rfl, ?_⟩
  apply sound.removed_shutAll
  · intro key inMap
    exact iff_of_true trivial ((enumerates.mem_iff key).mpr inMap)
  · exact fun key _ => lookup_empty key
  · exact fun key stays => absurd trivial stays

theorem offer_eq (event : Event) (notClosed : m.isClosed cell = false) :
    ∃ next, m.offer event cell = .ok next ∧ Kept m next := by
  rw [offer, notClosed, if_neg Bool.false_ne_true]
  split
  next => exact ⟨_, rfl, Kept.buffer m cell (· ++ [event])⟩
  next => exact ⟨m, rfl, Kept.refl m⟩

theorem foldlM_offer (event : Event) (lives : List Live) (m : Memory)
    (areOpen : ∀ live ∈ lives, m.isClosed live.cell = false) :
    ∃ next, lives.foldlM
      (fun m live => if m.wants event live then m.offer event live.cell else .ok m) m = .ok next ∧
      Kept m next := by
  induction lives generalizing m with
  | nil => exact ⟨m, rfl, Kept.refl m⟩
  | cons first lives ih =>
    have isFirst : ∃ next, (if m.wants event first then m.offer event first.cell else .ok m) =
        Except.ok next ∧ Kept m next := by
      split
      next => exact offer_eq event (areOpen first mem_cons_self)
      next => exact ⟨m, rfl, Kept.refl m⟩
    obtain ⟨next, isNext, kept⟩ := isFirst
    obtain ⟨last, isLast, keptLater⟩ := ih next fun live member => by
      rw [kept.closed]
      exact areOpen live (mem_cons_of_mem _ member)
    refine ⟨last, ?_, kept.trans keptLater⟩
    rw [foldlM_cons, isNext]
    exact isLast

theorem Sound.publish (sound : Sound m) (event : Event) (order : List String) :
    ∃ next, m.publish event order = .ok next ∧ Kept m next :=
  foldlM_offer event _ m fun live member => (sound.open_visited live member).1

end Memory

namespace Memory

theorem bus_subscribe {m : Memory} (running : m.running = true) (subscriber : String)
    (query : Query) :
    m.bus.subscribe subscriber query =
      ((m.subscribe subscriber query).1.bus, match (m.subscribe subscriber query).2 with
        | .error err => some err
        | .ok _ => none) := by
  have isRunning : ¬m.bus.running = false := by simp [bus, running]
  rw [Bus.subscribe, if_neg isRunning, subscribe]
  have sameKeys : subscriptionKey subscriber query ∈ m.bus.subscriptions ↔
      subscriptionKey subscriber query ∈ m.subscriptions := mem_mapValues ..
  by_cases taken : subscriptionKey subscriber query ∈ m.subscriptions
  · rw [if_pos (sameKeys.mpr taken), if_pos taken]
  · rw [if_neg (mt sameKeys.mp taken), if_neg taken]
    split
    next => rfl
    next => simp only [bus, mapValues_insert]

theorem Sound.bus_unsubscribe {m : Memory} (sound : Sound m) (subscriber : String) (query : Query) :
    ∃ next err, m.unsubscribe subscriber query = .ok (next, err) ∧
      m.bus.unsubscribe subscriber query = (next.bus, err) := by
  have sameKeys : subscriptionKey subscriber query ∈ m.bus.subscriptions ↔
      subscriptionKey subscriber query ∈ m.subscriptions := mem_mapValues ..
  rw [Memory.unsubscribe, Bus.unsubscribe]
  cases found : m.subscriptions.lookup (subscriptionKey subscriber query) with
  | none =>
    rw [if_neg (mt sameKeys.mp (lookup_eq_none.mp found))]
    exact ⟨m, _, rfl, rfl⟩
  | some live =>
    have shuts := cancelOnce_eq (sound.notClosed found) (sound.notCancelled found)
    rw [if_pos (sameKeys.mpr (mem_of_lookup_eq_some found))]
    refine ⟨_, _, by simp only [shuts]; rfl, ?_⟩
    simp only [bus, mapValues_erase, shut]

end Memory

namespace Goroutine

/-- The sender has found the cell not cancelled and is about to send. -/
def Selects : Goroutine → Nat → Prop
  | selecting _ _ here _ _, cell => here = cell
  | _, _ => False

/-- The goroutine is the watcher of a subscription with the key and the cell. -/
def Watches : Goroutine → String → Nat → Prop
  | watching _ subscriber query own, key, cell =>
    subscriptionKey subscriber query = key ∧ own = cell
  | waiting _ subscriber query own _, key, cell =>
    subscriptionKey subscriber query = key ∧ own = cell
  | _, _, _ => False

/-- The keys that the next step of a goroutine removes. -/
def Removes (m : Memory) : Goroutine → String → Prop
  | called (.unsubscribe subscriber query), key => key = subscriptionKey subscriber query
  | called (.unsubscribeAll subscriber), key => m.owns subscriber key = true
  | clearing, _ => True
  | waiting context subscriber query _ _, key =>
    context ∈ m.contexts ∧ key = subscriptionKey subscriber query
  | _, _ => False

/-- A goroutine that is neither at a send nor a watcher. -/
def isPlain : Goroutine → Bool
  | selecting .. => false
  | watching .. => false
  | waiting .. => false
  | _ => true

theorem not_selects {goroutine : Goroutine} (plain : goroutine.isPlain = true) (cell : Nat) :
    ¬goroutine.Selects cell := by
  cases goroutine with
  | selecting => cases plain
  | _ => exact id

theorem not_watches {goroutine : Goroutine} (plain : goroutine.isPlain = true) (key : String)
    (cell : Nat) :
    ¬goroutine.Watches key cell := by
  cases goroutine with
  | watching | waiting => cases plain
  | _ => exact id

end Goroutine

open Goroutine

open Memory

/-- What a step of a goroutine can do. -/
inductive Advanced (m : Memory) : Goroutine → Except Panic Progress → Prop where
  | stopOfStopped : Advanced m .stopping (.error .stopOfStopped)
  | sendOnClosed {context event cell cells stopCh} (isClosed : m.isClosed cell = true) :
      Advanced m (.selecting context event cell cells stopCh) (.error (.sendOnClosed cell))
  | kept {goroutine after next} (kept : Kept m next)
      (selects : ∀ cell, after.Selects cell → goroutine.Selects cell ∨ m.isCancelled cell = false)
      (watches : ∀ key cell, after.Watches key cell → goroutine.Watches key cell) :
      Advanced m goroutine (.ok ⟨next, after, none⟩)
  | subscribed {context subscriber query next}
      (added : Added m next (subscriptionKey subscriber query) ⟨subscriber, query⟩) :
      Advanced m (.subscribing context subscriber query)
        (.ok ⟨next, .returned (.subscribed m.cells.length),
          watcher context subscriber query m.cells.length⟩)
  | removed {goroutine after next} (removed : Removed m next (goroutine.Removes m))
      (plain : after.isPlain = true) :
      Advanced m goroutine (.ok ⟨next, after, none⟩)

theorem Advanced.stays (m : Memory) (goroutine : Goroutine) :
    Advanced m goroutine (.ok ⟨m, goroutine, none⟩) :=
  .kept (Kept.refl m) (fun _ => .inl) (fun _ _ => id)

theorem Advanced.goes {m next : Memory} {after : Goroutine} (goroutine : Goroutine)
    (kept : Kept m next) (plain : after.isPlain = true) :
    Advanced m goroutine (.ok ⟨next, after, none⟩) :=
  .kept kept (fun cell selects => absurd selects (not_selects plain cell))
    (fun key cell watches => absurd watches (not_watches plain key cell))

variable {goroutine : Goroutine}

theorem Advanced.ite {m : Memory} {condition : Prop} [Decidable condition]
    {first second : Except Panic Progress} (isFirst : Advanced m goroutine first)
    (isSecond : Advanced m goroutine second) :
    Advanced m goroutine (if condition then first else second) := by
  split
  next => exact isFirst
  next => exact isSecond

theorem Memory.Kept.flags (m : Memory) (running : Bool) (stopCh : Nat) (stopChs : List Bool)
    (wg : Nat) :
    Kept m { m with running := running, stopCh := stopCh, stopChs := stopChs, wg := wg } :=
  ⟨rfl, rfl, fun _ => rfl, fun _ => rfl⟩

theorem Memory.Sound.advance {m : Memory} (sound : Sound m) (choice : Choice)
    (goroutine : Goroutine) :
    Advanced m goroutine (goroutine.advance m choice) := by
  cases goroutine with
  | called call =>
    cases call with
    | start => exact .ite (.goes _ (.refl m) rfl) (.goes _ (.flags m ..) rfl)
    | stop => exact .ite (.goes _ (.flags m ..) rfl) (.goes _ (.refl m) rfl)
    | subscribe context subscriber query =>
      exact .ite (.goes _ (.refl m) rfl) (.goes _ (.refl m) rfl)
    | unsubscribe subscriber query =>
      obtain ⟨next, err, isNext, removed⟩ := sound.unsubscribe subscriber query
      rw [Goroutine.advance, isNext]
      cases err with
      | none | some => exact .removed removed rfl
    | unsubscribeAll subscriber =>
      rw [Goroutine.advance]
      split
      next enumerates =>
        obtain ⟨next, isNext, removed⟩ := sound.unsubscribeAll subscriber enumerates
        rw [isNext]
        exact .removed removed rfl
      next => exact .stays m _
    | publish event => exact .ite (.goes _ (.refl m) rfl) (.goes _ (.refl m) rfl)
    | publishWithTimeout context event =>
      exact .ite (.goes _ (.refl m) rfl) (.goes _ (.refl m) rfl)
  | starting => exact .goes _ (.flags m ..) rfl
  | stopping => exact .ite .stopOfStopped (.goes _ (.flags m ..) rfl)
  | clearing =>
    rw [Goroutine.advance]
    split
    next enumerates =>
      obtain ⟨next, isNext, removed⟩ := sound.clear enumerates
      rw [isNext]
      exact .removed removed rfl
    next => exact .stays m _
  | draining => exact .ite (.goes _ (.refl m) rfl) (.stays m _)
  | subscribing context subscriber query =>
    rw [Goroutine.advance]
    rcases m.subscribe_cases subscriber query with ⟨err, isError⟩ | ⟨next, isNext, added⟩
    · rw [isError]
      exact .goes _ (.refl m) rfl
    · rw [isNext]
      cases context with
      | none => exact .subscribed added
      | some context => exact .subscribed ⟨added.free, added.subscriptions, added.cells⟩
  | publishing event =>
    rw [Goroutine.advance]
    split
    next =>
      obtain ⟨next, isNext, kept⟩ := sound.publish event choice.order
      rw [isNext]
      exact .goes _ kept rfl
    next => exact .stays m _
  | collecting context event => exact .ite (.goes _ (.refl m) rfl) (.stays m _)
  | sending context event cells =>
    cases cells with
    | nil => exact .goes _ (.refl m) rfl
    | cons cell cells =>
      rw [Goroutine.advance]
      split
      next => exact .goes _ (.refl m) rfl
      next notCancelled =>
        refine .kept (.refl m) ?_ (fun _ _ => False.elim)
        rintro _ rfl
        exact .inr (Bool.eq_false_of_not_eq_true notCancelled)
  | selecting context event cell cells stopCh =>
    rw [Goroutine.advance]
    cases choice.branch with
    | send =>
      cases isClosed : m.isClosed cell with
      | true =>
        rw [offer, isClosed]
        exact .sendOnClosed isClosed
      | false =>
        obtain ⟨next, isNext, kept⟩ := offer_eq event isClosed
        rw [isNext]
        exact .ite (.goes _ kept rfl) (.stays m _)
    | timeout => exact .goes _ (.refl m) rfl
    | contextDone | stopped => exact .ite (.goes _ (.refl m) rfl) (.stays m _)
  | watching context subscriber query cell =>
    exact .kept (.refl m) (fun _ => False.elim) (fun _ _ => id)
  | waiting context subscriber query cell stopCh =>
    rw [Goroutine.advance]
    cases choice.branch with
    | contextDone =>
      obtain ⟨next, err, isNext, removed⟩ := sound.unsubscribe subscriber query
      rw [isNext]
      dsimp only
      split
      next isDone =>
        refine .removed ?_ rfl
        have isGone : (waiting context subscriber query cell stopCh).Removes m =
            (· = subscriptionKey subscriber query) :=
          funext fun key => propext (and_iff_right isDone)
        rw [isGone]
        exact ⟨removed.length, removed.lookup_gone, removed.lookup, removed.closed,
          removed.cancelled⟩
      next => exact .stays m _
    | stopped => exact .ite (.goes _ (.flags m ..) rfl) (.stays m _)
    | send | timeout => exact .stays m _
  | returned outcome => exact .stays m _

/-! ## Steps of the process -/

structure Inherits (p : Process) (goroutine : Goroutine) : Prop where
  selects : ∀ cell, goroutine.Selects cell →
    (∃ old ∈ p.goroutines, old.Selects cell) ∨ p.memory.isCancelled cell = false
  watches : ∀ key cell, goroutine.Watches key cell → ∃ old ∈ p.goroutines, old.Watches key cell

/-- What a step of the process can do. -/
inductive Stepped (p : Process) : Action → Process → Prop where
  | kept {action next} (memory : Kept p.memory next.memory)
      (goroutines : ∀ goroutine ∈ next.goroutines, Inherits p goroutine)
      (panic : next.panic = p.panic ∨ next.panic = some .stopOfStopped ∨
        ∃ goroutine ∈ p.goroutines, ∃ cell, goroutine.Selects cell ∧
          p.memory.isClosed cell = true ∧ next.panic = some (.sendOnClosed cell)) :
      Stepped p action next
  | added {index choice next context subscriber query}
      (found : p.goroutines[index]? = some (.subscribing context subscriber query))
      (memory : Added p.memory next.memory (subscriptionKey subscriber query)
        ⟨subscriber, query⟩)
      (goroutines : ∀ goroutine ∈ next.goroutines, Inherits p goroutine ∨
        watcher context subscriber query p.memory.cells.length = some goroutine)
      (others : ∀ other goroutine, other ≠ index → p.goroutines[other]? = some goroutine →
        next.goroutines[other]? = some goroutine)
      (panic : next.panic = p.panic) :
      Stepped p (.advance index choice) next
  | removed {index choice next goroutine} (found : p.goroutines[index]? = some goroutine)
      (memory : Removed p.memory next.memory (goroutine.Removes p.memory))
      (goroutines : ∀ goroutine ∈ next.goroutines,
        goroutine ∈ p.goroutines ∨ goroutine.isPlain = true)
      (others : ∀ other goroutine, other ≠ index → p.goroutines[other]? = some goroutine →
        next.goroutines[other]? = some goroutine)
      (panic : next.panic = p.panic) :
      Stepped p (.advance index choice) next

variable {p : Process}

theorem Inherits.of_mem (member : goroutine ∈ p.goroutines) : Inherits p goroutine :=
  ⟨fun _ selects => .inl ⟨goroutine, member, selects⟩,
    fun _ _ watches => ⟨goroutine, member, watches⟩⟩

theorem Inherits.of_plain (plain : goroutine.isPlain = true) : Inherits p goroutine :=
  ⟨fun cell selects => absurd selects (not_selects plain cell),
    fun key cell watches => absurd watches (not_watches plain key cell)⟩

/-- After a step of one goroutine the others are those from before. -/
theorem Inherits.of_mem_set {index : Nat} {after : Goroutine}
    (inherits : Inherits p after) (member : goroutine ∈ p.goroutines.set index after) :
    Inherits p goroutine := by
  rcases mem_or_eq_of_mem_set member with isOld | rfl
  · exact .of_mem isOld
  · exact inherits

/-- The goroutines keep their places when one of them goes on and starts others. -/
theorem getElem?_set_append {goroutines spawned : List Goroutine} {index other : Nat}
    {after : Goroutine} (different : other ≠ index)
    (found : goroutines[other]? = some goroutine) :
    (goroutines.set index after ++ spawned)[other]? = some goroutine := by
  have inside := (List.getElem?_eq_some_iff.mp found).1
  rw [List.getElem?_append_left (by rwa [length_set]),
    getElem?_set_ne (Ne.symm different), found]

theorem Memory.Sound.step (sound : Sound p.memory) (action : Action) :
    Stepped p action (p.step action) := by
  have same : ∀ goroutine ∈ p.goroutines, Inherits p goroutine := fun _ => .of_mem
  have unchanged {action : Action} : Stepped p action p := .kept (.refl _) same (.inl rfl)
  unfold Process.step
  split
  next => exact unchanged
  cases action with
  | call call =>
    refine .kept (.refl _) ?_ (.inl rfl)
    intro goroutine member
    rcases mem_append.mp member with isOld | isNew
    · exact .of_mem isOld
    · exact mem_singleton.mp isNew ▸ .of_plain rfl
  | cancel context =>
    exact .kept ⟨rfl, rfl, fun _ => rfl, fun _ => rfl⟩ same (.inl rfl)
  | receive cell =>
    exact .kept (Kept.buffer p.memory cell tail) same (.inl rfl)
  | advance index choice =>
    dsimp only
    cases found : p.goroutines[index]? with
    | none => exact unchanged
    | some goroutine =>
      have isMember := mem_of_getElem? found
      dsimp only
      generalize result : goroutine.advance p.memory choice = outcome
      have advanced := result ▸ sound.advance choice goroutine
      cases advanced with
      | stopOfStopped => exact .kept (.refl _) same (.inr (.inl rfl))
      | sendOnClosed isClosed =>
        exact .kept (.refl _) same (.inr (.inr ⟨_, isMember, _, rfl, isClosed, rfl⟩))
      | kept kept selects watches =>
        refine .kept kept ?_ (.inl rfl)
        intro other member
        rw [Process.resume, Option.toList_none, append_nil] at member
        apply Inherits.of_mem_set _ member
        exact ⟨fun cell isSelected => (selects cell isSelected).imp_left
            fun before => ⟨_, isMember, before⟩,
          fun key cell isWatched => ⟨_, isMember, watches key cell isWatched⟩⟩
      | subscribed added =>
        refine .added found added ?_ (fun _ _ => getElem?_set_append) rfl
        intro other member
        rcases mem_append.mp member with inSet | isNew
        · exact .inl (.of_mem_set (.of_plain rfl) inSet)
        · exact .inr (Option.mem_toList.mp isNew)
      | removed removed plain =>
        refine .removed found removed ?_ (fun _ _ => getElem?_set_append) rfl
        intro other member
        rw [Process.resume, Option.toList_none, append_nil] at member
        rcases mem_or_eq_of_mem_set member with isOld | rfl
        · exact .inl isOld
        · exact .inr plain

theorem Stepped.sound {next : Process} {action : Action} (stepped : Stepped p action next)
    (sound : Sound p.memory) : Sound next.memory := by
  cases stepped with
  | kept memory | added _ memory | removed _ memory => exact memory.sound sound

theorem sound_init (config : EventBusConfig) (bufferSize : Int) :
    Sound (Process.init config bufferSize).memory where
  inRange found := by cases found
  notClosed found := by cases found
  notCancelled found := by cases found
  injective found := by cases found
  cancelled_of_closed isClosed := by cases isClosed

theorem Memory.Sound.after (sound : Sound p.memory) (actions : List Action) :
    Sound (Run.after Process.step p actions).memory := by
  induction actions generalizing p with
  | nil => exact sound
  | cons action actions ih => exact ih ((sound.step action).sound sound)

end Blockberry.Events
