import Blockberry.Events.Channels

/-!
# Closing and sending on closed channels

`Publish` sends under the lock, where the subscriptions are open. `PublishWithTimeout` sends later
without the lock, so a subscription that is removed in between makes it send on a closed channel.
-/

namespace Blockberry.Events

open Bus Memory

/-- No subscription is removed that a sender is about to send to. -/
def SparesSenders (p : Process) (action : Action) : Prop :=
  ∀ key live, p.memory.subscriptions.lookup key = some live →
    (∃ goroutine ∈ p.goroutines, goroutine.Selects live.cell) →
    (p.step action).memory.subscriptions.lookup key = some live

/-- Nothing is about to be sent on a closed channel. -/
structure SendersOpen (p : Process) : Prop where
  sound : Sound p.memory
  notClosed : ∀ goroutine ∈ p.goroutines, ∀ cell, goroutine.Selects cell →
    p.memory.isClosed cell = false
  notSent : ∀ cell, p.panic ≠ some (.sendOnClosed cell)

variable {p next : Process} {action : Action} {cell : Nat}

theorem Memory.Sound.isClosed_eq_false {m : Memory} (sound : Sound m)
    (notCancelled : m.isCancelled cell = false) : m.isClosed cell = false := by
  apply Bool.eq_false_of_not_eq_true
  intro isClosed
  rw [sound.cancelled_of_closed isClosed] at notCancelled
  cases notCancelled

/-- What a goroutine after a step is about to send to was open before it. -/
theorem SendersOpen.isClosed_before (opened : SendersOpen p) {goroutine : Goroutine}
    (inherits : Inherits p goroutine) (selects : goroutine.Selects cell) :
    p.memory.isClosed cell = false := by
  cases inherits.selects cell selects with
  | inl before =>
    obtain ⟨old, member, isSelected⟩ := before
    exact opened.notClosed old member cell isSelected
  | inr notCancelled => exact opened.sound.isClosed_eq_false notCancelled

theorem SendersOpen.stepped (opened : SendersOpen p) (stepped : Stepped p action next)
    (spares : ∀ key live, p.memory.subscriptions.lookup key = some live →
      (∃ goroutine ∈ p.goroutines, goroutine.Selects live.cell) →
      next.memory.subscriptions.lookup key = some live) : SendersOpen next := by
  have isSound := stepped.sound opened.sound
  cases stepped with
  | kept memory goroutines panic =>
    refine ⟨isSound, ?_, ?_⟩
    · intro goroutine member cell selects
      rw [memory.closed]
      exact opened.isClosed_before (goroutines goroutine member) selects
    · intro cell isPanic
      rcases panic with same | isStop | ⟨goroutine, member, sent, selects, isClosed, -⟩
      · exact opened.notSent cell (same.symm.trans isPanic)
      · cases isStop.symm.trans isPanic
      · rw [opened.notClosed goroutine member sent selects] at isClosed
        cases isClosed
  | @added index choice next context subscriber query found memory goroutines others panic =>
    refine ⟨isSound, ?_, panic ▸ opened.notSent⟩
    intro goroutine member cell selects
    rw [memory.isClosed_eq]
    rcases goroutines goroutine member with inherits | isWatcher
    · exact opened.isClosed_before inherits selects
    · cases context with
      | none => cases isWatcher
      | some context => cases Option.some.inj isWatcher ▸ selects
  | removed found memory goroutines others panic =>
    refine ⟨isSound, ?_, panic ▸ opened.notSent⟩
    intro goroutine member cell selects
    cases goroutines goroutine member with
    | inr plain => exact absurd selects (Goroutine.not_selects plain cell)
    | inl isOld =>
      apply Bool.eq_false_of_not_eq_true
      intro isClosed
      rcases (memory.closed cell).mp isClosed with wasClosed | ⟨key, live, isGone, isLive, rfl⟩
      · rw [opened.notClosed goroutine isOld cell selects] at wasClosed
        cases wasClosed
      · have stays := spares key live isLive ⟨goroutine, isOld, selects⟩
        rw [memory.lookup_gone key isGone] at stays
        cases stays

theorem sendersOpen_init (config : EventBusConfig) (bufferSize : Int) :
    SendersOpen (Process.init config bufferSize) where
  sound := sound_init config bufferSize
  notClosed goroutine member := by cases member
  notSent cell isPanic := by cases isPanic

theorem closeOfClosed_step (sound : Sound p.memory)
    (before : p.panic ≠ some (.closeOfClosed cell)) (action : Action) :
    (p.step action).panic ≠ some (.closeOfClosed cell) := by
  have stepped := sound.step action
  generalize p.step action = next at stepped
  cases stepped with
  | kept _ _ panic =>
    rcases panic with same | isStop | ⟨_, _, _, _, _, isSend⟩
    · rwa [same]
    · rw [isStop]
      simp
    · rw [isSend]
      simp
  | added _ _ _ _ panic | removed _ _ _ _ panic => rwa [panic]

theorem closeOfClosed_after (sound : Sound p.memory)
    (before : p.panic ≠ some (.closeOfClosed cell)) (actions : List Action) :
    (Run.after Process.step p actions).panic ≠ some (.closeOfClosed cell) := by
  induction actions generalizing p with
  | nil => exact before
  | cons action actions ih =>
    exact ih ((sound.step action).sound sound) (closeOfClosed_step sound before action)

theorem panic_of_send {index : Nat} {goroutine : Goroutine} (alive : p.panic = none)
    (found : p.goroutines[index]? = some goroutine) (selects : goroutine.Selects cell)
    (isClosed : p.memory.isClosed cell = true) (order : List String) :
    (p.step (.advance index ⟨.send, order⟩)).panic = some (.sendOnClosed cell) := by
  cases goroutine with
  | selecting context event here cells stopCh =>
    subst selects
    have isError : (Goroutine.selecting context event here cells stopCh).advance p.memory
        ⟨.send, order⟩ = .error (.sendOnClosed here) := by
      simp only [Goroutine.advance, isClosed, Bool.true_or, offer, ↓reduceIte]
      rfl
    simp only [Process.step, alive, found, isError]
    rfl
  | _ => cases selects

theorem exists_panic (sound : Sound p.memory) (alive : p.panic = none) (order : List String)
    (notSpared : ¬SparesSenders p action) :
    ∃ index cell, ((p.step action).step (.advance index ⟨.send, order⟩)).panic =
      some (.sendOnClosed cell) := by
  have stepped := sound.step action
  unfold SparesSenders at notSpared
  generalize p.step action = next at stepped notSpared
  push Not at notSpared
  obtain ⟨key, live, isLive, ⟨goroutine, member, selects⟩, notKept⟩ := notSpared
  cases stepped with
  | kept memory => exact absurd (memory.subscriptions ▸ isLive) notKept
  | added found memory =>
    have different : key ≠ subscriptionKey _ _ := fun same =>
      memory.free (same ▸ Finmap.mem_of_lookup_eq_some isLive)
    rw [memory.subscriptions, Finmap.lookup_insert_of_ne _ different] at notKept
    exact absurd isLive notKept
  | @removed index choice next remover found memory goroutines others panic =>
    have isGone : remover.Removes p.memory key := by
      by_contra stays
      rw [memory.lookup key stays] at notKept
      exact notKept isLive
    obtain ⟨place, isPlace⟩ := List.getElem?_of_mem member
    have different : place ≠ index := by
      rintro rfl
      cases Option.some.inj (isPlace.symm.trans found)
      cases goroutine with
      | selecting => exact isGone
      | _ => exact selects
    refine ⟨place, live.cell, panic_of_send (panic.trans alive)
      (others place goroutine different isPlace) selects ?_ order⟩
    exact (memory.closed live.cell).mpr (.inr ⟨key, live, isGone, isLive, rfl⟩)

/-- No channel is ever closed twice. Where no subscription is removed while a sender is about to
send to it, nothing is sent on a closed channel; where one is, the sender can panic next. -/
theorem sends_on_open_of_spared (config : EventBusConfig) (bufferSize : Int)
    (actions : List Action) :
    (∀ cell, (Run.after Process.step (.init config bufferSize) actions).panic ≠
      some (.closeOfClosed cell)) ∧
    (Run.EveryStep Process.step SparesSenders (.init config bufferSize) actions →
      ∀ cell, (Run.after Process.step (.init config bufferSize) actions).panic ≠
        some (.sendOnClosed cell)) ∧
    ((Run.after Process.step (.init config bufferSize) actions).panic = none → ∀ action order,
      ¬SparesSenders (Run.after Process.step (.init config bufferSize) actions) action →
        ∃ index cell, (Run.after Process.step (.init config bufferSize)
          (actions ++ [action, .advance index ⟨.send, order⟩])).panic =
            some (.sendOnClosed cell)) := by
  have sound := (sound_init config bufferSize).after actions
  refine ⟨fun cell => ?_, fun every cell => ?_, fun alive action order notSpared => ?_⟩
  · exact closeOfClosed_after (sound_init config bufferSize) (by simp [Process.init]) actions
  · have opened := every.invariant (sendersOpen_init config bufferSize)
      fun state action opened spares => opened.stepped (opened.sound.step action) spares
    exact opened.notSent cell
  · simp only [Run.after_append]
    exact exists_panic sound alive order notSpared

/-- The subscriber unsubscribes after the sender has found its subscription not cancelled. -/
theorem unsubscribed_before_send :
    (Run.after Process.step (.init ⟨0, 0⟩ 1) [
      .call .start, .advance 0 ⟨.send, []⟩, .advance 0 ⟨.send, []⟩,
      .call (.subscribe none "s" .all), .advance 1 ⟨.send, []⟩, .advance 1 ⟨.send, []⟩,
      .call (.publishWithTimeout none ⟨"Tx", []⟩), .advance 2 ⟨.send, []⟩,
      .advance 2 ⟨.send, ["s:all"]⟩, .advance 2 ⟨.send, []⟩,
      .call (.unsubscribe "s" .all), .advance 3 ⟨.send, []⟩,
      .advance 2 ⟨.send, []⟩]).panic = some (.sendOnClosed 0) := by
  decide +kernel

end Blockberry.Events
