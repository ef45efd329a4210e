import RegressionScript.Number.Fraction

/-!
# Binary floating point, exactly

A floating-point number is taken apart into a sign, a significand and a power of two, and the
number nearest to an exact fraction is put together again. Nothing here computes with rounded
arithmetic.
-/

namespace RegressionScript

set_option autoImplicit false

/-- A floating-point number taken apart. A finite one is `± significand * 2 ^ exponent`. -/
inductive Binary64 where
  | nan
  | infinite (negative : Bool)
  | finite (negative : Bool) (significand : Nat) (exponent : Int)
deriving DecidableEq

namespace Binary64

def ofBits (bits : Nat) : Binary64 :=
  let negative := decide (bits / 0x8000000000000000 % 2 = 1)
  let biased : Nat := bits / 0x10000000000000 % 2048
  let fraction := bits % 0x10000000000000
  if biased = 2047 then
    if fraction = 0 then .infinite negative else .nan
  else if biased = 0 then .finite negative fraction (-1074)
  else .finite negative (0x10000000000000 + fraction) ((biased : Int) - 1075)

def ofFloat (x : Float) : Binary64 :=
  ofBits x.toBits.toNat

/-- Whether the number is a zero of either sign. -/
def isZero : Binary64 → Bool
  | .finite _ significand _ => significand == 0
  | _ => false

def isFinite : Binary64 → Bool
  | .finite .. => true
  | _ => false

/-- The exact value of `significand * 2 ^ exponent`. -/
def magnitude (significand : Nat) (exponent : Int) : Fraction :=
  Fraction.scale 2 exponent ⟨significand, 1⟩

/-- The bit pattern, without sign, of the nearest number of unbounded range: with the significand
kept below `2 ^ 53` a carry out of it moves into the exponent by itself. -/
def nearestBits (x : Fraction) : Nat :=
  if x.num = 0 then 0
  else
    let exponent := max (x.order 2 - 52) (-1074)
    (exponent + 1074).toNat * 0x10000000000000 + (x.scale 2 (-exponent)).round

/-- The nearest floating-point number, the one with the even significand of two that are equally
near. There is none where rounding leads beyond the largest finite number. -/
def nearest? (negative : Bool) (x : Fraction) : Option Float :=
  let bits := nearestBits x
  if bits < 0x7ff0000000000000 then
    some (Float.ofBits (UInt64.ofNat (bits + if negative then 0x8000000000000000 else 0)))
  else none

end Binary64

end RegressionScript
