import Blockberry.Node.Completion

/-!
# What becomes of stored blocks

Gossip and sync write to one store, in any order. A block that is stored stays as it is, and what
is added to it has the hash that it is stored under.
-/

namespace Blockberry.Node

open BlockStore LawfulBlockStore Handlers Sync

variable {σ : Type} [LawfulBlockStore σ] {hashBlock : Bytes → Bytes} {n : Node σ}
  {event : ChainEvent} {store final : σ} {b : PeerBlock}

theorem hash_eq_of_taken {validator : Option BlockValidator} {blocks : List PeerBlock}
    (taken : Taken hashBlock validator store blocks b) : hashBlock b.data = b.hash := by
  induction blocks with
  | nil => exact taken.elim
  | cons block rest ih =>
    rcases taken with ⟨rfl, acceptable⟩ | ⟨later, -⟩
    · exact acceptable.hash_eq
    · exact ih later

theorem hash_eq_of_adds (adds : n.Adds hashBlock event b) : hashBlock b.data = b.hash := by
  unfold Adds at adds
  split at adds
  next =>
    obtain ⟨store, r, -, -, -, passes, -⟩ := adds
    exact passes.hash_eq
  next =>
    obtain ⟨store, r, -, -, blocks, checked, -, -, taken⟩ := adds
    exact hash_eq_of_taken taken
  next => exact adds.elim

/-- The second store has the blocks of the first, and others with the right hash only. -/
structure Extends (hashBlock : Bytes → Bytes) (store final : σ) : Prop where
  kept : ∀ height block, loadBlock store height = some block → loadBlock final height = some block
  hash_eq : ∀ height hash data, loadBlock final height = some (hash, data) →
    loadBlock store height = some (hash, data) ∨ hashBlock data = hash

theorem Extends.saveBlock (extended : Extends hashBlock store final)
    (right : hashBlock b.data = b.hash)
    (saved : (saveBlock final b.height b.hash b.data).2 = none) :
    Extends hashBlock store (saveBlock final b.height b.hash b.data).1 where
  kept height block found := by
    have before := extended.kept height block found
    rw [loadBlock_saveBlock _ _ _ _ saved, if_neg, before]
    -- a block is only saved at a free height
    rintro rfl
    have free := ((saveBlock_ok_iff ..).mp saved).1
    rw [hasBlock_eq, before] at free
    cases free
  hash_eq height hash data found := by
    rw [loadBlock_saveBlock _ _ _ _ saved] at found
    split at found
    next =>
      cases found
      exact .inr right
    next => exact extended.hash_eq height hash data found

/-- Whatever messages and timers a node handles and in whatever order: the stored blocks stay, and
every other block that it then has is stored under its own hash. -/
theorem stored_blocks_final (shares : n.Shares store) (events : List ChainEvent) :
    ∃ final, (Run.after (next hashBlock) n events).Shares final ∧
      Extends hashBlock store final := by
  refine @Run.invariant_after _ _ (next hashBlock) n
    (fun n => ∃ final, n.Shares final ∧ Extends hashBlock store final) events
    ⟨store, shares, fun _ _ => id, fun _ _ _ => .inl⟩ ?_
  rintro n event ⟨middle, shares, extended⟩
  obtain ⟨final, sharesFinal, grows⟩ := shares.next event
  refine ⟨final, sharesFinal, grows.preserves (Extends hashBlock store) ?_ extended⟩
  intro store b extended adds saved
  exact extended.saveBlock (hash_eq_of_adds adds) saved

def oneBlock : PrunableMemoryBlockStore :=
  (saveBlock PrunableMemoryBlockStore.new 1 [9] [1]).1

/-- The stored block stays although another of its height is gossiped, and the one at a free
height is added. -/
theorem stored_blocks_final_gossip : loadBlock oneBlock 1 = some ([9], [1]) ∧ ∃ final,
    (Run.after (next id) (sharing oneBlock (some acceptAllBlockValidator) none 10)
        gossipedAhead).Shares final ∧
      Extends id oneBlock final ∧ loadBlock final 5 = some ([5], [5]) := by
  obtain ⟨final, shares, extended⟩ := @stored_blocks_final _ _ id _ oneBlock
    (shares_sharing oneBlock (some acceptAllBlockValidator) none 10) gossipedAhead
  have added : (Run.after (next id) (sharing oneBlock (some acceptAllBlockValidator) none 10)
      gossipedAhead).blockStore.map (loadBlock · 5) = some (some ([5], [5])) := by
    decide +kernel
  rw [shares.own] at added
  exact ⟨by decide +kernel, final, shares, extended, Option.some.inj added⟩

end Blockberry.Node
