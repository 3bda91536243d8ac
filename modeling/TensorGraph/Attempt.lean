import TensorGraph.Error

/-! # Attempts

A step of a rewrite may have nothing to give, and then the rewrite is declined. That is not what
happens when a number on the way leaves the range of counts: an overflow ends the program.
-/

namespace TensorGraph

/-- Why an attempt has no result. -/
inductive Refusal where
  | declined
  | overflow
deriving DecidableEq

abbrev Attempt := Except Refusal

namespace Attempt

variable {α : Type}

def ofOption : Option α → Attempt α
  | some a => .ok a
  | none => .error .declined

/-- The result of an edit. A failed edit is no reason to fail for what attempts it. -/
def ofEdit : Except GraphError α → Attempt α
  | .ok a => .ok a
  | .error .overflow => .error .overflow
  | .error _ => .error .declined

/-- The result of an attempt that may be declined. -/
def optional : Attempt α → Attempt (Option α)
  | .ok a => .ok (some a)
  | .error .declined => .ok none
  | .error .overflow => .error .overflow

end Attempt

end TensorGraph
