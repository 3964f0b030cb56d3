import Mathlib.Order.Basic

/-! Bisection for the greatest number below a bound that fits. Nothing is assumed of
which numbers fit, so the greatest is found where the numbers tried below it fit. -/
namespace Bisect

variable (fits : Nat → Bool)

/-- The numbers up to `goal` that a search which ends there tries. -/
def tried (goal low stop : Nat) : List Nat :=
  if low < stop then
    let mid := (low + stop - 1) / 2
    if mid ≤ goal then mid :: tried goal (mid + 1) stop else tried goal low mid
  else []
termination_by stop - low

variable {low goal stop : Nat}

end Bisect
