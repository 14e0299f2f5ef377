import Mathlib.Logic.Relation

/-!
# Flooding

An item spreads along the links of a graph. It is covered if every node that has it is linked only
to nodes that have it too or that a packet is on its way to.
-/

namespace Flooding

variable {ν : Type*} {link : ν → ν → Prop} {has has' : ν → Prop} {flying flying' : ν → ν → Prop}

def Covered (link : ν → ν → Prop) (has : ν → Prop) (flying : ν → ν → Prop) : Prop :=
  ∀ a b, link a b → has a → has b ∨ flying a b

/-- The item stays where it is, a packet leaves it where it lands, and a node that gets it passes
it on. -/
theorem Covered.step (covered : Covered link has flying) (stays : ∀ a, has a → has' a)
    (lands : ∀ a b, link a b → flying a b → has' b ∨ flying' a b)
    (passes : ∀ a b, link a b → has' a → ¬has a → has' b ∨ flying' a b) :
    Covered link has' flying' := by
  intro a b linked now
  by_cases before : has a
  · rcases covered a b linked before with found | flies
    · exact .inl (stays b found)
    · exact lands a b linked flies
  · exact passes a b linked now before

/-- With nothing on its way the item has reached everything that is connected to a node with it. -/
theorem Covered.reaches (covered : Covered link has flying)
    (silent : ∀ a b, link a b → ¬flying a b) {a b : ν} (path : Relation.ReflTransGen link a b)
    (start : has a) : has b := by
  induction path with
  | refl => exact start
  | tail _ linked found => exact (covered _ _ linked found).resolve_right (silent _ _ linked)

end Flooding
