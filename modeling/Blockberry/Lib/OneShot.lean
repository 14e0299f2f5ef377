import Mathlib.Data.Multiset.AddSub

/-!
# One-shot messages over a lossless network

The network is the multiset of packets in flight: nothing is lost or duplicated, and any packet may
be the next to arrive. A kind of packet that is sent at most once is conserved: those in flight and
the one received are those sent.
-/

namespace OneShot

open Multiset

variable {Packet : Type*} (kind : Packet → Prop) [DecidablePred kind]

/-- What is in flight and what has been received make up what has been sent. -/
def Conserved (sent received : Bool) (flight : Multiset Packet) : Prop :=
  flight.countP kind + received.toNat = sent.toNat

variable {kind} {sent sent' received : Bool} {flight more : Multiset Packet} {packet : Packet}

theorem conserved_zero : Conserved kind false false 0 := rfl

/-- Packets join the flight together with the fact that they have been sent. -/
theorem Conserved.send (conserved : Conserved kind sent received flight)
    (count : more.countP kind + sent.toNat = sent'.toNat) :
    Conserved kind sent' received (flight + more) := by
  simp only [Conserved, countP_add] at conserved ⊢
  omega

/-- A packet that arrives is the only one of its kind, and the first to arrive. -/
theorem Conserved.receive (conserved : Conserved kind sent received (packet ::ₘ flight))
    (isKind : kind packet) : received = false ∧ Conserved kind sent true flight := by
  simp only [Conserved, countP_cons_of_pos flight isKind] at conserved
  have atMostOnce := sent.toNat_le
  cases received with
  | true =>
    simp only [Bool.toNat_true] at conserved
    omega
  | false =>
    refine ⟨rfl, ?_⟩
    simp only [Conserved, Bool.toNat_true, Bool.toNat_false] at conserved ⊢
    omega

/-- Packets of other kinds do not matter. -/
theorem conserved_cons_iff (otherKind : ¬kind packet) :
    Conserved kind sent received (packet ::ₘ flight) ↔ Conserved kind sent received flight := by
  rw [Conserved, Conserved, countP_cons_of_neg flight otherKind]

/-- With nothing in flight, all that has been sent has been received. -/
theorem Conserved.received_eq (conserved : Conserved kind sent received 0) : received = sent := by
  simp only [Conserved, countP_zero, Nat.zero_add] at conserved
  cases received <;> cases sent <;> first | rfl | contradiction

end OneShot
