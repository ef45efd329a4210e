/-!
# Integer powers of floating-point numbers

Square and multiply, in a fixed order of operations.
-/

namespace RegressionScript.Power

set_option autoImplicit false

/-- `r * x ^ n`, multiplying `r` by the current square for each set bit of `n` from the lowest. -/
def times (r x : Float) (n : Nat) : Float :=
  let r' := if n % 2 = 1 then r * x else r
  if n / 2 = 0 then r' else times r' (x * x) (n / 2)
termination_by n
decreasing_by omega

def natural (x : Float) (n : Nat) : Float :=
  times 1.0 x n

/-- The power to a signed exponent: for a negative one the reciprocal of the positive power. -/
def integer (x : Float) (n : Int) : Float :=
  if n < 0 then 1.0 / natural x n.natAbs else natural x n.natAbs

/-- The power to a 32-bit exponent, whose highest bit is taken as a sign. -/
def word (x : Float) (n : UInt32) : Float :=
  integer x n.toInt32.toInt

end RegressionScript.Power
