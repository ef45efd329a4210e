import RegressionScript.Number.Binary64

/-!
# Decimals

A decimal is a natural number times a power of ten. Here are the floating-point number nearest to
a decimal, the shortest decimal that a floating-point number is nearest to, and the positional
text of a decimal.
-/

namespace RegressionScript

set_option autoImplicit false

/-- The magnitude `digits * 10 ^ exponent`. -/
structure Decimal where
  digits : Nat
  exponent : Int
deriving DecidableEq

namespace Decimal

def toFraction (d : Decimal) : Fraction :=
  Fraction.scale 10 d.exponent ⟨d.digits, 1⟩

/-- Where the decimal point stands, counted from the first digit. -/
def point (d : Decimal) : Int :=
  Digits.width 10 d.digits + d.exponent

/-- The floating-point number nearest to a decimal, if it is finite. A decimal far above the
largest number has none and one far below the smallest goes to zero, whatever its digits are. -/
def toFloat? (negative : Bool) (d : Decimal) : Option Float :=
  if d.digits = 0 ∨ d.point < -330 then Binary64.nearest? negative ⟨0, 1⟩
  else if 310 < d.point then none
  else Binary64.nearest? negative d.toFraction

/-- Keeps the first `n` digits. A single one stands for all digits that follow them, whatever
they are, so what is cut always counts as something. -/
def cut (n : Nat) (d : Decimal) : Decimal :=
  let excess := Digits.width 10 d.digits - n
  if excess = 0 then d
  else ⟨10 * (d.digits / Nat.pow 10 excess) + 1, d.exponent + excess - 1⟩

theorem cut_eq_self {n : Nat} {d : Decimal} (h : Digits.width 10 d.digits ≤ n) : d.cut n = d := by
  simp [cut, Nat.sub_eq_zero_of_le h]

/-- Moves trailing zeros of the digits into the exponent. -/
def trim (d : Decimal) : Decimal :=
  if 0 < d.digits ∧ d.digits % 10 = 0 then trim ⟨d.digits / 10, d.exponent + 1⟩ else d
termination_by d.digits
decreasing_by omega

/-- Which of two decimals is taken for a number half-way between them. -/
inductive Tie where
  | up
  | even

/-- Whether the decimals that are nearer to `significand * 2 ^ exponent` than to any other number
include this one. The bounds belong to the number with an even significand. Just above a power of
two the gap to the number below is only half as wide. -/
def readsAs (significand : Nat) (exponent : Int) (d : Decimal) : Bool :=
  let gap := if significand = 0x10000000000000 ∧ -1074 < exponent then 1 else 2
  let low := Binary64.magnitude (4 * significand - gap) (exponent - 2)
  let high := Binary64.magnitude (4 * significand + 2) (exponent - 2)
  if significand % 2 = 0 then low.le d.toFraction && d.toFraction.le high
  else low.lt d.toFraction && d.toFraction.lt high

/-- The nearer of the two `n`-digit neighbours of a number among those that read as it. -/
def withDigits? (tie : Tie) (significand : Nat) (exponent : Int) (n : Nat) : Option Decimal :=
  let x := Binary64.magnitude significand exponent
  let unit := x.order 10 + 1 - n
  let y := x.scale 10 (-unit)
  let below : Decimal := ⟨y.floor, unit⟩
  let above : Decimal := ⟨y.floor + 1, unit⟩
  match below.readsAs significand exponent, above.readsAs significand exponent with
  | true, false => some below
  | false, true => some above
  | false, false => none
  | true, true =>
    match y.compareHalf, tie with
    | .lt, _ => some below
    | .gt, _ => some above
    | .eq, .up => some above
    | .eq, .even => some (if y.floor % 2 = 0 then below else above)

/-- The decimal with the fewest digits that reads as `significand * 2 ^ exponent`, and of those
the nearest. Seventeen digits always suffice; the exact value stands for the case of more. -/
def shortest (tie : Tie) (significand : Nat) (exponent : Int) : Decimal :=
  if significand = 0 then ⟨0, 0⟩
  else
    let exact : Decimal :=
      ⟨significand * Nat.pow 2 exponent.toNat * Nat.pow 5 (-exponent).toNat, min exponent 0⟩
    (((List.range 17).findSome? fun n => withDigits? tie significand exponent (n + 1)).getD exact).trim

/-- A decimal without exponent: a zero before a point that would stand first, and no point after
a whole number. -/
def positional (d : Decimal) : List Char :=
  let digits := Digits.ofNat d.digits
  let whole := ((digits.length : Int) + d.exponent).toNat
  if 0 ≤ d.exponent then digits ++ List.replicate d.exponent.toNat '0'
  else if whole = 0 then
    '0' :: '.' :: (List.replicate ((-d.exponent).toNat - digits.length) '0' ++ digits)
  else digits.take whole ++ '.' :: digits.drop whole

end Decimal

end RegressionScript
