import Intreccio.Foundation.MapOrder

/-! What an evaluation leaves open: the order of each loop over a map and each random draw.
A choice belongs to a site, so every part of a computation has choices of its own.
-/

namespace Kv

structure Choices extends MapOrder where
  draw : List Nat → UInt64

namespace Choices

def sub (c : Choices) (i : Nat) : Choices :=
  { toMapOrder := c.toMapOrder.sub i, draw := fun site => c.draw (i :: site) }

/-- The choices of the evaluation at hand, and those of all that follow it. -/
def now (c : Choices) : Choices := c.sub 0

def later (c : Choices) : Choices := c.sub 1

/-- Every loop in the order of the keys, every draw zero. -/
def ordered : Choices where
  rank := fun _ i => i
  draw := fun _ => 0

end Choices

end Kv
