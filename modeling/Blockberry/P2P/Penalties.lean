import Blockberry.Lib.Machine
import Blockberry.P2P.Peers

/-!
# The two counts of penalty points

`GetPenaltyPoints` reads the state of a connected peer and `GetEffectivePenaltyPoints` the record.
A call acts on a small view of one peer: the live points, and the points and the time of the
record. The counts agree at every moment as long as the peer connects with its points used up, and
as many hours are on the clock of its record as there were calls of `DecayPenalties`.
-/

namespace Blockberry.P2P

open FiniteMap PeerState Peers PeerScorer PeerManager Option Int64 PenaltyRecord Function

variable (hours : WholeHours)

/-! ## One peer -/

/-- The live points of a connected peer, and the points and last decay of its record. -/
structure View where
  live : Option Int64
  points : Int64
  lastDecay : Option Int
  deriving DecidableEq, Repr

/-- What there is about a peer. -/
def Peers.view (peers : Peers) (p : PeerID) : View where
  live := (peers.manager.getPeer p).map (·.penaltyPoints)
  points := ((peers.scorer.penaltyHistory.lookup p).map (·.points)).getD 0
  lastDecay := (peers.scorer.penaltyHistory.lookup p).map (·.lastDecay)

namespace View

def hoursElapsed (now : Int) (v : View) : Int64 :=
  (v.lastDecay.map fun last => hours.count (now - last)).getD 0

/-- The record with the decay taken off. -/
def decayed (now : Int) (v : View) : View :=
  if 0 < v.hoursElapsed hours now then
    { v with
      points := lessPoints v.points (v.hoursElapsed hours now * penaltyDecayRate)
      lastDecay := some now }
  else v

def effective (now : Int) (v : View) : Int64 := (v.decayed hours now).points

/-- A call as the peer sees it. -/
def step (p : PeerID) (v : View) (timed : Timed) : View :=
  match timed.call with
  | .addPenalty peerID points _ _ =>
    if peerID = p then
      { live := v.live.map (· + points)
        points := v.effective hours timed.now + points
        lastDecay := some ((v.decayed hours timed.now).lastDecay.getD timed.now) }
    else v
  | .addPeer peerID _ => if peerID = p then { v with live := some (v.live.getD 0) } else v
  | .removePeer peerID => if peerID = p then { v with live := none } else v
  | .decayPenalties => { v with live := v.live.map (lessPoints · penaltyDecayRate) }
  | .getPenaltyPoints peerID =>
    if peerID = p ∧ v.live = none then v.decayed hours timed.now else v
  | .getEffectivePenaltyPoints peerID => if peerID = p then v.decayed hours timed.now else v
  | .shouldBan peerID => if peerID = p then v.decayed hours timed.now else v
  | .recordBan peerID =>
    if peerID = p then { v with lastDecay := some (v.lastDecay.getD timed.now) } else v
  | .resetBanCount _ => v

/-- A connected peer has the same points in its state as in its record. -/
def Agrees (now : Int) (v : View) : Prop :=
  ∀ live, v.live = some live → live = v.effective hours now

end View

section Refinement

variable {hours} {peers : Peers} {p peerID : PeerID} {now : Int}

theorem getPeer_modify (pm : PeerManager) (change : PeerState → PeerState) :
    (pm.modify peerID change).getPeer p =
      if peerID = p then (pm.getPeer p).map change else pm.getPeer p := by
  rw [PeerManager.modify]
  split
  next absent =>
    split
    next same =>
      rw [← same, absent]
      rfl
    next => rfl
  next state found =>
    rw [getPeer, lookup_insert]
    split
    next same =>
      rw [← same, found]
      rfl
    next => rfl

theorem getPeer_addPeer (pm : PeerManager) (isOutbound : Bool) :
    (pm.addPeer peerID isOutbound).getPeer p =
      if peerID = p then some ((pm.getPeer p).getD (newPeerState isOutbound))
      else pm.getPeer p := by
  rw [addPeer]
  split
  next present =>
    split
    next same =>
      obtain ⟨state, found⟩ := Finmap.mem_iff.mp (same ▸ present)
      rw [getPeer, found]
      rfl
    next => rfl
  next absent =>
    rw [getPeer, lookup_insert]
    split
    next same =>
      rw [getPeer, Finmap.lookup_eq_none.mpr (same ▸ absent)]
      rfl
    next => rfl

theorem decayed_view {record : PenaltyRecord}
    (found : peers.scorer.penaltyHistory.lookup p = some record) :
    (peers.view p).decayed hours now =
      { (peers.view p) with
        points := (record.applyDecay hours now).points
        lastDecay := some (record.applyDecay hours now).lastDecay } := by
  have sameHours : (peers.view p).hoursElapsed hours now = record.hoursElapsed hours now := by
    simp [view, View.hoursElapsed, found, hoursElapsed]
  rw [View.decayed, sameHours, applyDecay]
  split
  next => simp [view, found]
  next => simp [view, found]

theorem decayed_view_of_none (absent : peers.scorer.penaltyHistory.lookup p = none) :
    (peers.view p).decayed hours now = peers.view p := by
  simp [view, View.decayed, View.hoursElapsed, absent]

theorem getEffectivePenaltyPoints_eq :
    (peers.scorer.getEffectivePenaltyPoints hours now p).2 =
      (peers.view p).effective hours now := by
  rw [getEffectivePenaltyPoints, View.effective]
  cases found : peers.scorer.penaltyHistory.lookup p with
  | none =>
    rw [decayed_view_of_none found]
    simp [view, found]
  | some record => rw [decayed_view found]

theorem view_getEffectivePenaltyPoints : view { peers with
      scorer := (peers.scorer.getEffectivePenaltyPoints hours now peerID).1 } p =
        if peerID = p then (peers.view p).decayed hours now else peers.view p := by
  rw [getEffectivePenaltyPoints]
  cases found : peers.scorer.penaltyHistory.lookup peerID with
  | none =>
    dsimp only
    split
    next same =>
      subst same
      rw [decayed_view_of_none found]
    next => rfl
  | some record =>
    dsimp only
    split
    next same =>
      subst same
      rw [decayed_view found]
      simp [view, setRecord]
    next different => simp [view, setRecord, lookup_insert, different]

theorem view_addPenalty (points : Int64) (reason : PenaltyReason) (message : String) :
    (peers.addPenalty hours now peerID points reason message).view p = if peerID = p then
        { live := (peers.view p).live.map (· + points)
          points := (peers.view p).effective hours now + points
          lastDecay := some (((peers.view p).decayed hours now).lastDecay.getD now) }
      else peers.view p := by
  split
  next same =>
    subst same
    have sameRecord : (((peers.scorer.recordOf now peerID).applyDecay hours now).points =
          (peers.view peerID).effective hours now) ∧
        ((peers.scorer.recordOf now peerID).applyDecay hours now).lastDecay =
          ((peers.view peerID).decayed hours now).lastDecay.getD now := by
      rw [recordOf, View.effective]
      cases found : peers.scorer.penaltyHistory.lookup peerID with
      | none =>
        rw [decayed_view_of_none found]
        simp [applyDecay, hoursElapsed, newPenaltyRecord,
          hours.count_zero, view, found]
      | some record =>
        rw [decayed_view found]
        exact ⟨rfl, rfl⟩
    simp only [Peers.view, Peers.addPenalty, getPeer_modify, ↓reduceIte, map_map,
      logEvent, setRecord, lookup_insert, map_some,
      getD_some]
    simp only [Peers.view] at sameRecord
    rw [sameRecord.1, sameRecord.2]
    rfl
  next different =>
    simp [Peers.view, Peers.addPenalty, getPeer_modify, different, logEvent,
      setRecord, lookup_insert]

theorem view_step (timed : Timed) :
    (peers.step hours timed).view p = (peers.view p).step hours p timed := by
  obtain ⟨now, call⟩ := timed
  cases call with
  | addPenalty peerID points reason message => exact view_addPenalty points reason message
  | addPeer peerID isOutbound =>
    simp only [step, View.step, view, getPeer_addPeer]
    split
    next =>
      cases peers.manager.getPeer p with
      | none => rfl
      | some state => rfl
    next => rfl
  | removePeer peerID =>
    simp only [step, View.step, view, removePeer, getPeer, lookup_erase]
    split
    next => rfl
    next => rfl
  | decayPenalties =>
    simp only [step, View.step, view, decayPenalties, getPeer, lookup_mapValues, map_map]
    rfl
  | getPenaltyPoints peerID =>
    simp only [step, View.step, getPenaltyPoints]
    cases found : peers.manager.getPeer peerID with
    | some state =>
      symm
      apply if_neg
      rintro ⟨rfl, notLive⟩
      simp [view, found] at notLive
    | none =>
      simp only
      rw [view_getEffectivePenaltyPoints]
      by_cases same : peerID = p
      · subst same
        simp [view, found]
      · simp [same]
  | getEffectivePenaltyPoints | shouldBan => exact view_getEffectivePenaltyPoints
  | recordBan peerID =>
    simp only [step, View.step, view, recordBan, setRecord, recordOf, lookup_insert]
    split
    next same =>
      subst same
      cases peers.scorer.penaltyHistory.lookup peerID with
      | none | some => rfl
    next => rfl
  | resetBanCount peerID =>
    simp only [step, View.step, view, resetBanCount]
    cases found : peers.scorer.penaltyHistory.lookup peerID with
    | none => rfl
    | some record =>
      simp only [lookup_insert]
      split
      next same =>
        subst same
        rw [found]
        rfl
      next => rfl

theorem getPenaltyPoints_eq_iff : (peers.getPenaltyPoints hours now p).2 =
        (peers.scorer.getEffectivePenaltyPoints hours now p).2 ↔
      (peers.view p).Agrees hours now := by
  rw [getEffectivePenaltyPoints_eq, getPenaltyPoints]
  cases found : peers.manager.getPeer p with
  | none =>
    have notLive : (peers.view p).live = none := by simp [view, found]
    rw [View.Agrees, notLive]
    simp [getEffectivePenaltyPoints_eq]
  | some state =>
    have isLive : (peers.view p).live = some state.penaltyPoints := by simp [view, found]
    rw [View.Agrees, isLive]
    simp

end Refinement

/-! ## Hours and calls of `DecayPenalties` -/

/-- What one call of `DecayPenalties` leaves. -/
def decayOnce (points : Int64) : Int64 := lessPoints points penaltyDecayRate

def leftover (points elapsed : Int64) : Int64 :=
  if 0 < elapsed then lessPoints points (elapsed * penaltyDecayRate) else points

def UsedUp (points : Int) (hours : Nat) : Prop :=
  if 0 ≤ points then points ≤ hours else 0 < hours ∧ -2 ^ 63 ≤ points - hours

def TakeSame (points : Int) (hours calls : Nat) : Prop :=
  if 0 ≤ points then hours = calls ∨ points ≤ hours ∧ points ≤ calls
  else if points = -2 ^ 63 then hours = calls
  else (hours = 0 ↔ calls = 0) ∧ -2 ^ 63 ≤ points - hours

section Arithmetic

open Machine

variable {points elapsed : Int64}

theorem toInt_lessPoints {taken : Int64} (takes : 0 ≤ taken.toInt) :
    (lessPoints points taken).toInt =
      if -2 ^ 63 ≤ points.toInt - taken.toInt then max (points.toInt - taken.toInt) 0
      else 2 ^ 64 + (points.toInt - taken.toInt) := by
  have below := points.toInt_lt
  have above := points.le_toInt
  have takenBelow := taken.toInt_lt
  rw [lessPoints]
  by_cases fits : -2 ^ 63 ≤ points.toInt - taken.toInt
  · have difference : (points - taken).toInt = points.toInt - taken.toInt :=
      toInt_sub_of_inRange ⟨fits, by omega⟩
    rw [if_pos fits]
    split
    next negative =>
      rw [lt_iff_toInt_lt, difference, toInt_zero] at negative
      rw [toInt_zero]
      omega
    next notNegative =>
      rw [lt_iff_toInt_lt, difference, toInt_zero] at notNegative
      omega
  · have difference : (points - taken).toInt = 2 ^ 64 + (points.toInt - taken.toInt) := by
      rw [toInt_sub, Int.bmod_def]
      split <;> omega
    have notNegative : ¬points - taken < 0 := by
      rw [lt_iff_toInt_lt, difference, toInt_zero]
      omega
    rw [if_neg fits, if_neg notNegative, difference]

theorem toInt_decayOnce (points : Int64) : (decayOnce points).toInt =
      if -2 ^ 63 ≤ points.toInt - 1 then max (points.toInt - 1) 0
      else 2 ^ 64 + (points.toInt - 1) := by
  have rate : penaltyDecayRate.toInt = 1 := by decide
  rw [decayOnce, toInt_lessPoints (by rw [rate]; decide), rate]

theorem toInt_iterate_of_nonneg (nonneg : 0 ≤ points.toInt) (calls : Nat) :
    (decayOnce^[calls] points).toInt = max (points.toInt - calls) 0 := by
  induction calls with
  | zero => simp [nonneg]
  | succ calls ih =>
    rw [iterate_succ_apply', toInt_decayOnce, ih]
    omega

/-- Negative points are used up by the first call; the least `int64` becomes the largest one. -/
theorem toInt_iterate_succ_of_neg (negative : points.toInt < 0) (calls : Nat) :
    (decayOnce^[calls + 1] points).toInt =
      if points.toInt = -2 ^ 63 then max (2 ^ 63 - 1 - calls : Int) 0 else 0 := by
  have first := toInt_decayOnce points
  have above := points.le_toInt
  rw [iterate_succ_apply, toInt_iterate_of_nonneg]
  · split
    · omega
    · omega
  · omega

theorem toInt_leftover (points elapsed : Int64) : (leftover points elapsed).toInt =
      if elapsed.toInt.toNat = 0 then points.toInt
      else if -2 ^ 63 ≤ points.toInt - elapsed.toInt.toNat then
        max (points.toInt - elapsed.toInt.toNat) 0
      else 2 ^ 64 + (points.toInt - elapsed.toInt.toNat) := by
  have rate : elapsed * penaltyDecayRate = elapsed := mul_one elapsed
  have passed_iff : 0 < elapsed ↔ 0 < elapsed.toInt := by
    rw [lt_iff_toInt_lt, toInt_zero]
  rw [leftover, rate]
  by_cases passed : 0 < elapsed.toInt
  · have notZero : elapsed.toInt.toNat ≠ 0 := by omega
    rw [if_pos (passed_iff.mpr passed), if_neg notZero, toInt_lessPoints passed.le,
      Int.toNat_of_nonneg passed.le]
  · have isZero : elapsed.toInt.toNat = 0 := by omega
    rw [if_neg (passed ∘ passed_iff.mp), if_pos isZero]

theorem leftover_eq_zero_iff :
    leftover points elapsed = 0 ↔ UsedUp points.toInt elapsed.toInt.toNat := by
  have above := points.le_toInt
  have hoursBelow := elapsed.toInt_lt
  rw [← toInt_inj, toInt_leftover, toInt_zero, UsedUp]
  split
  · split <;> omega
  · split
    · split <;> omega
    · split <;> omega

theorem leftover_eq_iterate_iff (calls : Nat) : leftover points elapsed = decayOnce^[calls] points ↔
      TakeSame points.toInt elapsed.toInt.toNat calls := by
  have above := points.le_toInt
  have hoursBelow := elapsed.toInt_lt
  have left := toInt_leftover points elapsed
  rw [← toInt_inj, TakeSame]
  by_cases nonneg : 0 ≤ points.toInt
  · have iterated := toInt_iterate_of_nonneg nonneg calls
    rw [if_pos nonneg]
    omega
  · rw [if_neg nonneg]
    cases calls with
    | zero =>
      rw [iterate_zero_apply]
      split <;> omega
    | succ calls =>
      have iterated := toInt_iterate_succ_of_neg (not_le.mp nonneg) calls
      split <;> omega

end Arithmetic

/-! ## Every moment of a run -/

structure Spell where
  call : PeerCall
  lasts : Nat
  deriving DecidableEq, Repr

structure Clocked where
  peers : Peers
  now : Int

def Clocked.step (c : Clocked) (spell : Spell) : Clocked where
  peers := c.peers.step hours ⟨c.now, spell.call⟩
  now := c.now + spell.lasts

def SamePoints (p : PeerID) (c : Clocked) (spell : Spell) : Prop :=
  ∀ elapsed : Nat, elapsed ≤ spell.lasts →
    ((c.step hours spell).peers.getPenaltyPoints hours (c.now + elapsed) p).2 =
      ((c.step hours spell).peers.scorer.getEffectivePenaltyPoints hours (c.now + elapsed) p).2

structure Traced extends Clocked where
  calls : Option Nat

namespace Traced

def start (now : Int) : Traced := ⟨⟨.new, now⟩, none⟩

def callsAfter (p : PeerID) (v : View) (now : Int) (calls : Option Nat) : PeerCall → Option Nat
  | .addPeer peerID _ => if peerID = p ∧ v.live = none then none else calls
  | .addPenalty peerID _ _ _ => if peerID = p then some 0 else calls
  | .decayPenalties => calls.map (· + 1)
  | .getEffectivePenaltyPoints peerID =>
    if peerID = p ∧ 0 < v.hoursElapsed hours now then some 0 else calls
  | .shouldBan peerID => if peerID = p ∧ 0 < v.hoursElapsed hours now then some 0 else calls
  | .removePeer _ => calls
  | .getPenaltyPoints _ => calls
  | .recordBan _ => calls
  | .resetBanCount _ => calls

def step (p : PeerID) (t : Traced) (spell : Spell) : Traced where
  toClocked := t.toClocked.step hours spell
  calls := callsAfter hours p (t.peers.view p) t.now t.calls spell.call

end Traced

open Traced

def View.Balanced (now : Int) (v : View) : Option Nat → Prop
  | none => v.live ≠ none → UsedUp v.points.toInt (v.hoursElapsed hours now).toInt.toNat
  | some calls =>
    v.live ≠ none → TakeSame v.points.toInt (v.hoursElapsed hours now).toInt.toNat calls

def Traced.InStep (p : PeerID) (t : Traced) (spell : Spell) : Prop :=
  ∀ elapsed : Nat, elapsed ≤ spell.lasts →
    View.Balanced hours (t.now + elapsed) ((t.step hours p spell).peers.view p)
      (t.step hours p spell).calls

def View.counted (v : View) : Option Nat → Int64
  | none => 0
  | some calls => decayOnce^[calls] v.points

def Counted (v : View) (calls : Option Nat) : Prop :=
  ∀ live, v.live = some live → live = v.counted calls

section Steps

variable {hours} {v : View} {p peerID : PeerID} {now : Int} {calls : Option Nat}

theorem effective_eq : v.effective hours now = leftover v.points (v.hoursElapsed hours now) := by
  rw [View.effective, View.decayed, leftover]
  split
  next => rfl
  next => rfl

theorem agrees_iff_balanced (counted : Counted v calls) :
    v.Agrees hours now ↔ v.Balanced hours now calls := by
  rw [View.Agrees]
  cases isLive : v.live with
  | none =>
    cases calls with
    | none | some => simp [View.Balanced, isLive]
  | some live =>
    have isCount := counted live isLive
    simp only [Option.some.injEq, forall_eq']
    rw [effective_eq, isCount, eq_comm]
    cases calls with
    | none => simpa [View.Balanced, View.counted, isLive] using leftover_eq_zero_iff
    | some calls =>
      simpa [View.Balanced, View.counted, isLive] using leftover_eq_iterate_iff calls

theorem Counted.of_same {next : View} (counted : Counted v calls) (live : next.live = v.live)
    (points_eq : next.points = v.points) : Counted next calls := by
  intro points isLive
  rw [counted points (live ▸ isLive)]
  cases calls with
  | none => rfl
  | some calls => rw [View.counted, View.counted, points_eq]

theorem Counted.decayed (counted : Counted v calls) (agrees : v.Agrees hours now) :
    Counted (v.decayed hours now) (if 0 < v.hoursElapsed hours now then some 0 else calls) := by
  by_cases passed : 0 < v.hoursElapsed hours now
  · rw [if_pos passed]
    intro live isLive
    rw [View.decayed, if_pos passed] at isLive
    exact agrees live isLive
  · rw [if_neg passed, View.decayed, if_neg passed]
    exact counted

/-- The calls of `DecayPenalties` stay counted right over a call that finds the counts in
agreement. -/
theorem counted_step (counted : Counted v calls) (agrees : v.Agrees hours now) (call : PeerCall) :
    Counted (v.step hours p ⟨now, call⟩) (callsAfter hours p v now calls call) := by
  cases call with
  | addPenalty peerID points reason message =>
    simp only [View.step, callsAfter]
    split
    next =>
      intro live isLive
      obtain ⟨before, wasLive, isSum⟩ := map_eq_some_iff.mp isLive
      rw [← isSum, agrees before wasLive]
      rfl
    next => exact counted
  | addPeer peerID isOutbound =>
    simp only [View.step, callsAfter]
    by_cases same : peerID = p
    · rw [if_pos same]
      cases isLive : v.live with
      | none =>
        rw [if_pos ⟨same, rfl⟩]
        intro live isNew
        exact (Option.some.inj isNew).symm
      | some live =>
        rw [if_neg (by simp)]
        exact counted.of_same isLive.symm rfl
    · rw [if_neg same, if_neg fun both => same both.1]
      exact counted
  | removePeer peerID =>
    simp only [View.step, callsAfter]
    split
    next =>
      intro live isLive
      cases isLive
    next => exact counted
  | decayPenalties =>
    simp only [View.step, callsAfter]
    intro live isLive
    obtain ⟨before, wasLive, isDecayed⟩ := map_eq_some_iff.mp isLive
    rw [← isDecayed, counted before wasLive]
    cases calls with
    | none => exact (by decide : lessPoints 0 penaltyDecayRate = 0)
    | some calls => exact (iterate_succ_apply' decayOnce calls v.points).symm
  | getPenaltyPoints peerID =>
    simp only [View.step, callsAfter]
    split
    next disconnected =>
      intro live isLive
      rw [View.decayed] at isLive
      split at isLive
      next => cases disconnected.2.symm.trans isLive
      next => cases disconnected.2.symm.trans isLive
    next => exact counted
  | getEffectivePenaltyPoints peerID | shouldBan peerID =>
    simp only [View.step, callsAfter]
    by_cases same : peerID = p
    · simp only [same, ↓reduceIte, true_and]
      exact counted.decayed agrees
    · simp only [same, ↓reduceIte, false_and]
      exact counted
  | recordBan peerID =>
    simp only [View.step, callsAfter]
    split
    next => exact counted.of_same rfl rfl
    next => exact counted
  | resetBanCount peerID => exact counted

end Steps

variable {hours}

structure Traced.Sound (hours : WholeHours) (p : PeerID) (t : Traced) : Prop where
  counted : Counted (t.peers.view p) t.calls
  agrees : (t.peers.view p).Agrees hours t.now

theorem Traced.Sound.counted_step {p : PeerID} {t : Traced} (sound : t.Sound hours p)
    (spell : Spell) :
    Counted ((t.step hours p spell).peers.view p) (t.step hours p spell).calls := by
  have after := P2P.counted_step sound.counted sound.agrees spell.call (p := p)
  rwa [← view_step] at after

theorem Traced.Sound.samePoints_iff {p : PeerID} {t : Traced} (sound : t.Sound hours p)
    (spell : Spell) : SamePoints hours p t.toClocked spell ↔ t.InStep hours p spell := by
  apply forall₂_congr
  intro elapsed _
  rw [getPenaltyPoints_eq_iff]
  exact agrees_iff_balanced (sound.counted_step spell)

theorem Traced.Sound.step {p : PeerID} {t : Traced} (sound : t.Sound hours p) {spell : Spell}
    (inStep : t.InStep hours p spell) : (t.step hours p spell).Sound hours p where
  counted := sound.counted_step spell
  -- the next call comes at the last moment of the spell
  agrees := (agrees_iff_balanced (sound.counted_step spell)).mpr (inStep spell.lasts le_rfl)

theorem everyStep_samePoints_iff {p : PeerID} (spells : List Spell) {t : Traced}
    (sound : t.Sound hours p) :
    Run.EveryStep (Clocked.step hours) (SamePoints hours p) t.toClocked spells ↔
      Run.EveryStep (step hours p) (InStep hours p) t spells := by
  induction spells generalizing t with
  | nil => exact Iff.rfl
  | cons spell spells ih =>
    rw [Run.EveryStep, Run.EveryStep, sound.samePoints_iff spell]
    apply and_congr_right
    intro inStep
    exact ih (sound.step inStep)

/-- In every run the two counts agree at every moment exactly if at every moment at which the peer
is connected the hours on the clock of its record use up its points or, once the record has been
written to, take as much off them as the calls of `DecayPenalties`: for points that are not
negative, there are as many hours as calls, or enough of both. -/
theorem samePoints_iff_inStep (hours : WholeHours) (p : PeerID) (now : Int) (spells : List Spell) :
    Run.EveryStep (Clocked.step hours) (SamePoints hours p) ⟨.new, now⟩ spells ↔
      Run.EveryStep (Traced.step hours p) (Traced.InStep hours p) (Traced.start now) spells := by
  apply everyStep_samePoints_iff spells (t := Traced.start now)
  constructor
  · intro live isLive
    cases isLive
  · intro live isLive
    cases isLive

/-- A peer that is penalized, disconnects and connects again has no points in its state and
still has those of its record. Without that, an hour without a call takes a point off the record
only. -/
theorem reconnected_points_differ :
    let reconnected := Run.after (Clocked.step exactHours) ⟨.new, 0⟩
      [⟨.addPeer "p" true, 1⟩, ⟨.addPenalty "p" 50 .protocolViolation "", 1⟩,
        ⟨.removePeer "p", 1⟩, ⟨.addPeer "p" true, 1⟩]
    let waiting := Run.after (Clocked.step exactHours) ⟨.new, 0⟩
      [⟨.addPeer "p" true, 0⟩, ⟨.addPenalty "p" 50 .protocolViolation "", hour.toNat⟩]
    ((reconnected.peers.getPenaltyPoints exactHours reconnected.now "p").2 = 0 ∧
        (reconnected.peers.scorer.getEffectivePenaltyPoints exactHours reconnected.now "p").2 =
          50) ∧
      (waiting.peers.getPenaltyPoints exactHours waiting.now "p").2 = 50 ∧
        (waiting.peers.scorer.getEffectivePenaltyPoints exactHours waiting.now "p").2 = 49 := by
  decide +kernel

end Blockberry.P2P
