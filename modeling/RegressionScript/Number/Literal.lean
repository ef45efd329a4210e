import RegressionScript.Number.Binary64

/-!
# Numeric literals of the generated code

A constant is written in exponent form with a fixed number of places after the point. The exact
binary value is rounded, a half to the even neighbour. The exponent is then written anew: in a
literal it always has a sign and at least two digits.
-/

namespace RegressionScript.Literal

set_option autoImplicit false

/-- The most places that a literal can be written with. -/
def maxPlaces : Nat := 65535

/-- The significand, of `places + 1` digits, and the exponent of a magnitude rounded to that many
digits. Rounding up to the next power of ten raises the exponent. -/
def scientific (places : Nat) (x : Fraction) : Nat × Int :=
  if x.num = 0 then (0, 0)
  else
    let order := x.order 10
    let rounded := (x.scale 10 (places - order)).round
    if rounded = Nat.pow 10 (places + 1) then (Nat.pow 10 places, order + 1) else (rounded, order)

/-- A magnitude in exponent form: a digit, the point and the other digits if there are any, and the
exponent, which has a sign only if it is negative. -/
def magnitudeForm (places : Nat) (x : Fraction) : List Char :=
  let (significand, exponent) := scientific places x
  let digits := Digits.padded (places + 1) significand
  let fraction := if places = 0 then [] else '.' :: digits.drop 1
  digits.take 1 ++ fraction ++ 'e' :: Digits.ofInt exponent

def signText (negative : Bool) : List Char :=
  if negative then ['-'] else []

/-- A value in exponent form. There are words for values that are not finite. -/
def exponentForm (places : Nat) (value : Float) : List Char :=
  match Binary64.ofFloat value with
  | .nan => "NaN".toList
  | .infinite negative => signText negative ++ "inf".toList
  | .finite negative significand exponent =>
    signText negative ++ magnitudeForm places (Binary64.magnitude significand exponent)

/-- An exponent with a sign in any case, and zeros in front of fewer than two digits. -/
def signedExponent : List Char → List Char
  | '-' :: digits => '-' :: digits.leftpad 2 '0'
  | digits => '+' :: digits.leftpad 2 '0'

/-- Writes what follows the first `e` as such an exponent. A text without an `e` stays as it is. -/
def normalize (cs : List Char) : List Char :=
  match cs.span (· != 'e') with
  | (mantissa, _ :: exponent) => mantissa ++ 'e' :: signedExponent exponent
  | (_, []) => cs

def text (places : Nat) (value : Float) : List Char :=
  normalize (exponentForm places value)

/-- The literal for a value with the given number of places, if there can be so many. -/
def format? (value : Float) (places : Nat) : Option String :=
  if places ≤ maxPlaces then some (String.ofList (text places value)) else none

end RegressionScript.Literal
