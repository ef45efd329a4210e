import RegressionScript.Number.Digits

/-!
# Exact fractions of natural numbers

Magnitudes as unreduced fractions, with what number formats ask of them: scaling by a power of a
base, the order of magnitude, comparison, and the nearest whole number.
-/

namespace RegressionScript

set_option autoImplicit false

/-- The magnitude `num / den`. The denominator is meant to be positive. -/
structure Fraction where
  num : Nat
  den : Nat

namespace Fraction

/-- The fraction times `base ^ k`, for any sign of `k`. -/
def scale (base : Nat) (k : Int) (x : Fraction) : Fraction :=
  ⟨x.num * Nat.pow base k.toNat, x.den * Nat.pow base (-k).toNat⟩

/-- The integer `k` with `base ^ k ≤ x < base ^ (k + 1)`, for a positive fraction. -/
def order (base : Nat) (x : Fraction) : Int :=
  if x.den ≤ x.num then (Digits.width base (x.num / x.den) : Int) - 1
  else -(Digits.width base ((x.den - 1) / x.num) : Int)

def floor (x : Fraction) : Nat :=
  x.num / x.den

/-- Compares what is left above the floor with one half. -/
def compareHalf (x : Fraction) : Ordering :=
  compare (2 * (x.num % x.den)) x.den

/-- The nearest whole number, the even one of two that are equally near. -/
def round (x : Fraction) : Nat :=
  match x.compareHalf with
  | .lt => x.floor
  | .gt => x.floor + 1
  | .eq => if x.floor % 2 = 0 then x.floor else x.floor + 1

def le (x y : Fraction) : Bool :=
  x.num * y.den ≤ y.num * x.den

def lt (x y : Fraction) : Bool :=
  x.num * y.den < y.num * x.den

end Fraction

end RegressionScript
