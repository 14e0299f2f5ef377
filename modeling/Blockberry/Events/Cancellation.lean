import Blockberry.Events.Channels

/-!
# Cancelling the context of a subscription

The watcher of a subscription unsubscribes by subscriber and query when the context is
cancelled, whatever the bus has under their key by then. It lives until its context is
cancelled or the bus stops, so it can outlive its subscription.
-/

namespace Blockberry.Events

open Bus Memory Process Goroutine Finmap Run List

inductive EndedBy (m : Memory) (key : String) (live : Live) : Goroutine → Prop where
  | unsubscribe {subscriber query} (same : key = subscriptionKey subscriber query) :
      EndedBy m key live (.called (.unsubscribe subscriber query))
  | unsubscribeAll : EndedBy m key live (.called (.unsubscribeAll live.subscription.subscriber))
  | context {context subscriber query stopCh} (cancelled : context ∈ m.contexts) :
      EndedBy m key live (.waiting context subscriber query live.cell stopCh)
  | stop : EndedBy m key live .clearing

/-- Every subscription stays in the map with an open channel, unless the step is one that
ends it. -/
def Stays (p : Process) (action : Action) : Prop :=
  ∀ key live, p.memory.subscriptions.lookup key = some live →
    (p.step action).memory.subscriptions.lookup key = some live ∧
      (p.step action).memory.isClosed live.cell = false ∨
    ∃ index choice goroutine, action = .advance index choice ∧
      p.goroutines[index]? = some goroutine ∧ EndedBy p.memory key live goroutine

/-- No subscription is added under a key that a watcher still has. -/
def Unwatched (p : Process) (action : Action) : Prop :=
  ∀ key, key ∉ p.memory.subscriptions → key ∈ (p.step action).memory.subscriptions →
    ∀ goroutine ∈ p.goroutines, ∀ cell, ¬goroutine.Watches key cell

/-- A watcher has the key of its own subscription or of none. -/
structure OwnWatchers (p : Process) : Prop where
  sound : Sound p.memory
  own : ∀ goroutine ∈ p.goroutines, ∀ key cell live, goroutine.Watches key cell →
    p.memory.subscriptions.lookup key = some live → live.cell = cell

/-- A watcher has a cell that exists. -/
def OldWatchers (p : Process) : Prop :=
  ∀ goroutine ∈ p.goroutines, ∀ key cell, goroutine.Watches key cell →
    cell < p.memory.cells.length

variable {p next : Process} {action : Action} {key : String} {live : Live}

/-! ## Own watchers -/

variable {goroutine : Goroutine}

theorem OwnWatchers.before (watchers : OwnWatchers p)
    (inherits : Inherits p goroutine) {cell : Nat} (watches : goroutine.Watches key cell)
    (found : p.memory.subscriptions.lookup key = some live) : live.cell = cell := by
  obtain ⟨old, member, isWatched⟩ := inherits.watches key cell watches
  exact watchers.own old member key cell live isWatched found

theorem watches_of_watcher {context : Option Nat} {subscriber : String} {query : Query}
    {own cell : Nat}
    (isWatcher : watcher context subscriber query own = some goroutine)
    (watches : goroutine.Watches key cell) :
    subscriptionKey subscriber query = key ∧ own = cell := by
  cases context with
  | none => cases isWatcher
  | some context =>
    cases Option.some.inj isWatcher
    exact watches

theorem OwnWatchers.stepped (watchers : OwnWatchers p) (stepped : Stepped p action next)
    (unwatched : ∀ key, key ∉ p.memory.subscriptions → key ∈ next.memory.subscriptions →
      ∀ goroutine ∈ p.goroutines, ∀ cell, ¬goroutine.Watches key cell) : OwnWatchers next := by
  refine ⟨stepped.sound watchers.sound, ?_⟩
  intro goroutine member key cell live watches found
  cases stepped with
  | kept memory goroutines =>
    rw [memory.subscriptions] at found
    exact watchers.before (goroutines goroutine member) watches found
  | added _ memory goroutines =>
    rcases goroutines goroutine member with inherits | isWatcher
    · rcases memory.lookup_eq_some found with ⟨rfl, rfl⟩ | ⟨-, before⟩
      · obtain ⟨old, isOld, isWatched⟩ := inherits.watches _ cell watches
        have isAdded := mem_of_lookup_eq_some found
        exact absurd isWatched (unwatched _ memory.free isAdded old isOld cell)
      · exact watchers.before inherits watches before
    · obtain ⟨rfl, rfl⟩ := watches_of_watcher isWatcher watches
      rcases memory.lookup_eq_some found with ⟨-, rfl⟩ | ⟨different, -⟩
      · rfl
      · exact absurd rfl different
  | removed _ memory goroutines =>
    have before := (memory.lookup_eq_some found).2
    cases goroutines goroutine member with
    | inl isOld => exact watchers.own goroutine isOld key cell live watches before
    | inr plain => exact absurd watches (not_watches plain key cell)

theorem OwnWatchers.endedBy (watchers : OwnWatchers p)
    (member : goroutine ∈ p.goroutines) (removes : goroutine.Removes p.memory key)
    (found : p.memory.subscriptions.lookup key = some live) :
    EndedBy p.memory key live goroutine := by
  cases goroutine with
  | called call =>
    cases call with
    | unsubscribe subscriber query => exact .unsubscribe removes
    | unsubscribeAll subscriber =>
      have isOwner : live.subscription.subscriber = subscriber := by
        simpa [Removes, owns, found] using removes
      exact isOwner ▸ .unsubscribeAll
    | _ => cases removes
  | clearing => exact .stop
  | waiting context subscriber query cell stopCh =>
    have isOwn := watchers.own _ member key cell live ⟨removes.2.symm, rfl⟩ found
    exact isOwn ▸ .context removes.1
  | _ => cases removes

theorem OwnWatchers.stays (watchers : OwnWatchers p) (action : Action) : Stays p action := by
  intro key live found
  have stepped := watchers.sound.step action
  generalize p.step action = next at stepped
  cases stepped with
  | kept memory =>
    refine .inl ⟨memory.subscriptions ▸ found, ?_⟩
    rw [memory.closed]
    exact watchers.sound.notClosed found
  | added _ memory =>
    refine .inl ⟨?_, ?_⟩
    · rw [memory.subscriptions, lookup_insert_of_ne]
      · exact found
      · rintro rfl
        exact memory.free (mem_of_lookup_eq_some found)
    · rw [memory.isClosed_eq]
      exact watchers.sound.notClosed found
  | @removed index choice next goroutine isGoroutine memory goroutines others panic =>
    by_cases isGone : goroutine.Removes p.memory key
    · have member := mem_of_getElem? isGoroutine
      exact .inr ⟨index, choice, goroutine, rfl, isGoroutine, watchers.endedBy member isGone found⟩
    · have stillThere := (memory.lookup key isGone).trans found
      exact .inl ⟨stillThere, (memory.sound watchers.sound).notClosed stillThere⟩

theorem ownWatchers_init (config : EventBusConfig) (bufferSize : Int) :
    OwnWatchers (.init config bufferSize) :=
  ⟨sound_init config bufferSize, fun _ member => by cases member⟩

/-! ## Stale watchers -/

theorem OldWatchers.stepped (watchers : OldWatchers p) (stepped : Stepped p action next) :
    OldWatchers next := by
  have before {goroutine : Goroutine} {key : String} {cell : Nat} (inherits : Inherits p goroutine)
      (watches : goroutine.Watches key cell) : cell < p.memory.cells.length := by
    obtain ⟨old, member, isWatched⟩ := inherits.watches key cell watches
    exact watchers old member key cell isWatched
  intro goroutine member key cell watches
  cases stepped with
  | kept memory goroutines =>
    rw [memory.length]
    exact before (goroutines goroutine member) watches
  | added _ memory goroutines =>
    rw [memory.cells, length_append, length_singleton]
    rcases goroutines goroutine member with inherits | isWatcher
    · exact Nat.lt_succ_of_lt (before inherits watches)
    · exact (watches_of_watcher isWatcher watches).2 ▸ Nat.lt_succ_self _
  | removed _ memory goroutines =>
    rw [memory.length]
    cases goroutines goroutine member with
    | inl isOld => exact watchers goroutine isOld key cell watches
    | inr plain => exact absurd watches (not_watches plain key cell)

theorem oldWatchers_after (watchers : OldWatchers p) (sound : Sound p.memory)
    (actions : List Action) : OldWatchers (after step p actions) := by
  induction actions generalizing p with
  | nil => exact watchers
  | cons action actions ih =>
    have stepped := sound.step action
    exact ih (watchers.stepped stepped) (stepped.sound sound)

/-- The watcher of another subscription removes the one under its key. -/
theorem not_stays_of_waiting {index context cell stopCh : Nat} {subscriber : String}
    {query : Query} (sound : Sound p.memory) (alive : p.panic = none)
    (isWaiting : p.goroutines[index]? = some (.waiting context subscriber query cell stopCh))
    (cancelled : context ∈ p.memory.contexts)
    (found : p.memory.subscriptions.lookup (subscriptionKey subscriber query) = some live)
    (different : live.cell ≠ cell) (order : List String) :
    ¬Stays p (.advance index ⟨.contextDone, order⟩) := by
  intro stays
  obtain ⟨next, err, isNext, removed⟩ := sound.unsubscribe subscriber query
  have lookup_next : (p.step (.advance index ⟨.contextDone, order⟩)).memory.subscriptions.lookup
      (subscriptionKey subscriber query) = none := by
    have isStep : (waiting context subscriber query cell stopCh).advance p.memory
        ⟨.contextDone, order⟩ = .ok ⟨{ next with wg := next.wg - 1 }, .returned .done, none⟩ := by
      simp only [advance, cancelled, ↓reduceIte, isNext]
      rfl
    simp only [step, alive, isWaiting, isStep]
    exact removed.lookup_gone _ rfl
  rcases stays _ live found with ⟨still, -⟩ | ⟨place, choice, goroutine, isAction, isPlace, ended⟩
  · rw [lookup_next] at still
    cases still
  · cases isAction
    cases isWaiting.symm.trans isPlace
    cases ended with
    | context => exact different rfl

/-- A watcher that has the key of another subscription can remove it. -/
theorem exists_not_stays {cell : Nat} (sound : Sound p.memory)
    (alive : p.panic = none) (member : goroutine ∈ p.goroutines)
    (watches : goroutine.Watches key cell)
    (found : p.memory.subscriptions.lookup key = some live) (different : live.cell ≠ cell)
    (choice : Choice) :
    ∃ more last, ¬Stays (after step p more) last := by
  obtain ⟨index, isPlace⟩ := getElem?_of_mem member
  cases goroutine with
  | waiting context subscriber query own stopCh =>
    obtain ⟨rfl, rfl⟩ := watches
    refine ⟨[.cancel context], .advance index ⟨.contextDone, []⟩, ?_⟩
    have isStep : p.step (.cancel context) = { p with
        memory := { p.memory with contexts := insert context p.memory.contexts } } := by
      simp [step, alive]
    rw [after_cons, after_nil, isStep]
    have isSound := (sound.step (.cancel context)).sound sound
    rw [isStep] at isSound
    exact not_stays_of_waiting isSound alive isPlace (Finset.mem_insert_self ..) found different []
  | watching context subscriber query own =>
    obtain ⟨rfl, rfl⟩ := watches
    refine ⟨[.advance index choice, .cancel context], .advance index ⟨.contextDone, []⟩, ?_⟩
    have inside := (List.getElem?_eq_some_iff.mp isPlace).1
    have isStep : (p.step (.advance index choice)).step (.cancel context) = { p with
        memory := { p.memory with contexts := insert context p.memory.contexts }
        goroutines := p.goroutines.set index
          (.waiting context subscriber query own p.memory.stopCh) } := by
      simp [step, alive, isPlace, advance, resume, pure, Except.pure]
    have isSound := sound.after [.advance index choice, .cancel context]
    simp only [after_cons, after_nil, isStep] at isSound ⊢
    apply not_stays_of_waiting
    · exact isSound
    · exact alive
    · exact getElem?_set_self inside
    · exact Finset.mem_insert_self ..
    · exact found
    · exact different
  | _ => cases watches

/-- A subscription that is added under the key of a watcher can be removed by it. -/
theorem exists_not_stays_of_watched (sound : Sound p.memory) (watchers : OldWatchers p)
    (alive : p.panic = none) (watched : ¬Unwatched p action) :
    ∃ more last, ¬Stays (after step p (action :: more)) last := by
  have stepped := sound.step action
  have isSound := stepped.sound sound
  unfold Unwatched at watched
  simp only [after_cons]
  generalize p.step action = next at stepped watched isSound
  push Not at watched
  obtain ⟨key, free, taken, goroutine, member, cell, watches⟩ := watched
  cases stepped with
  | kept memory => exact absurd (memory.subscriptions ▸ taken) free
  | @added index choice next context subscriber query isSubscribing memory goroutines others
      panic =>
      obtain ⟨live, found⟩ := mem_iff.mp taken
      rcases memory.lookup_eq_some found with ⟨rfl, rfl⟩ | ⟨-, before⟩
      · obtain ⟨place, isPlace⟩ := getElem?_of_mem member
        have different : place ≠ index := by
          rintro rfl
          cases isPlace.symm.trans isSubscribing
          exact watches
        have isLater := mem_of_getElem? (others place goroutine different isPlace)
        exact exists_not_stays isSound (panic.trans alive) isLater watches found
          (watchers goroutine member _ cell watches).ne' choice
      · exact absurd (mem_of_lookup_eq_some before) free
  | removed _ memory =>
    obtain ⟨live, found⟩ := mem_iff.mp taken
    exact absurd (mem_of_lookup_eq_some (memory.lookup_eq_some found).2) free

theorem stays_of_unwatched (actions : List Action) (watchers : OwnWatchers p)
    (every : EveryStep step Unwatched p actions) :
    EveryStep step Stays p actions := by
  induction actions generalizing p with
  | nil => trivial
  | cons action actions ih =>
    refine ⟨watchers.stays action, ih ?_ every.2⟩
    exact watchers.stepped (watchers.sound.step action) every.1

/-- In a run in which no subscription is added under a key that a watcher still has, every
subscription stays open until it is unsubscribed, its own context is cancelled or the bus stops.
Where one is added, a later step of the watcher can remove it. -/
theorem stays_iff_unwatched (config : EventBusConfig) (bufferSize : Int) (actions : List Action) :
    (Run.EveryStep Process.step Unwatched (.init config bufferSize) actions →
      Run.EveryStep Process.step Stays (.init config bufferSize) actions) ∧
    ((Run.after Process.step (.init config bufferSize) actions).panic = none → ∀ action,
      ¬Unwatched (Run.after Process.step (.init config bufferSize) actions) action →
        ∃ more last, ¬Stays (Run.after Process.step (.init config bufferSize)
          (actions ++ action :: more)) last) := by
  have sound := sound_init config bufferSize
  constructor
  · exact stays_of_unwatched actions (ownWatchers_init config bufferSize)
  · intro alive action watched
    simp only [Run.after_append]
    have old := oldWatchers_after (fun _ member => by cases member) sound actions
    exact exists_not_stays_of_watched (sound.after actions) old alive watched

/-- A subscriber unsubscribes and subscribes again with another context. Cancelling the first
context removes the second subscription and closes its channel. -/
theorem stale_watcher_removes :
    let p := Run.after step (.init ⟨0, 0⟩ 1) [
      .call .start, .advance 0 ⟨.send, []⟩, .advance 0 ⟨.send, []⟩,
      .call (.subscribe (some 0) "s" .all), .advance 1 ⟨.send, []⟩, .advance 1 ⟨.send, []⟩,
      .advance 2 ⟨.send, []⟩,
      .call (.unsubscribe "s" .all), .advance 3 ⟨.send, []⟩,
      .call (.subscribe (some 1) "s" .all), .advance 4 ⟨.send, []⟩, .advance 4 ⟨.send, []⟩,
      .cancel 0]
    (p.memory.subscriptions.lookup "s:all").map Live.cell = some 1 ∧
      p.memory.isClosed 1 = false ∧ 1 ∉ p.memory.contexts ∧
      (p.step (.advance 2 ⟨.contextDone, []⟩)).memory.subscriptions.keys = ∅ ∧
      (p.step (.advance 2 ⟨.contextDone, []⟩)).memory.isClosed 1 = true := by
  decide +kernel

end Blockberry.Events
