import RegressionScript.Number.Literal

/-!
# Arithmetic expressions

The expressions that make up the body of a generated function, the inputs they read, and their
text.
-/

namespace RegressionScript

set_option autoImplicit false

inductive Expr where
  | const (value : Float)
  | int (value : Int64)
  | input (index : UInt32)
  | pow (base : Expr) (exponent : UInt32)
  | product (factors : List Expr)
  | sum (terms : List Expr)
  | sub (left right : Expr)
  | div (left right : Expr)

namespace Expr

mutual

/-- Equality that compares constants as floating-point numbers, so that a constant that is not a
number equals nothing and the two zeros are equal. -/
def beq : Expr → Expr → Bool
  | .const v, .const w => v == w
  | .int v, .int w => v == w
  | .input i, .input j => i == j
  | .pow b e, .pow c f => b.beq c && e == f
  | .product fs, .product gs => beqAll fs gs
  | .sum ts, .sum us => beqAll ts us
  | .sub l r, .sub m s => l.beq m && r.beq s
  | .div l r, .div m s => l.beq m && r.beq s
  | _, _ => false

def beqAll : List Expr → List Expr → Bool
  | [], [] => true
  | e :: es, f :: fs => e.beq f && beqAll es fs
  | _, _ => false

end

instance : BEq Expr := ⟨beq⟩

mutual

/-- The largest index of an input that the expression reads. -/
def maxInput? : Expr → Option Nat
  | .const _ => none
  | .int _ => none
  | .input i => some i.toNat
  | .pow b _ => b.maxInput?
  | .product fs => maxInputAll? fs
  | .sum ts => maxInputAll? ts
  | .sub l r => Option.merge max l.maxInput? r.maxInput?
  | .div l r => Option.merge max l.maxInput? r.maxInput?

def maxInputAll? : List Expr → Option Nat
  | [] => none
  | e :: es => Option.merge max e.maxInput? (maxInputAll? es)

end

/-- The element of the input array at an index. -/
def inputText (index : Nat) : List Char :=
  "(_this#".toList ++ Digits.ofNat index ++ [')']

mutual

/-- The text of an expression. Factors are joined by `*` and terms by ` + `; only a difference is
put in parentheses. -/
def text (places : Nat) : Expr → List Char
  | .const v => Literal.text places v
  | .int v => Digits.ofInt v.toInt
  | .input i => inputText i.toNat
  | .pow b e => b.text places ++ '^' :: Digits.ofNat e.toNat
  | .product fs => List.intercalate ['*'] (textAll places fs)
  | .sum ts => List.intercalate " + ".toList (textAll places ts)
  | .sub l r => '(' :: (l.text places ++ " - ".toList ++ r.text places ++ [')'])
  | .div l r => l.text places ++ " / ".toList ++ r.text places

def textAll (places : Nat) : List Expr → List (List Char)
  | [] => []
  | e :: es => e.text places :: textAll places es

end

/-- The places that constants have where none are asked for. -/
def defaultPlaces : Nat := 6

/-- The text of an expression, if its constants can have so many places. -/
def format? (e : Expr) (places : Nat) : Option String :=
  if places ≤ Literal.maxPlaces then some (String.ofList (e.text places)) else none

end Expr

end RegressionScript
