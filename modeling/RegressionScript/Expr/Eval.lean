import RegressionScript.Expr.Basic
import RegressionScript.Number.Power

/-!
# Values of expressions

Evaluation in floating-point arithmetic, in the order in which the expression is written. The
first input that is missing is the error.
-/

namespace RegressionScript

set_option autoImplicit false

/-- Why a program gives no value. -/
inductive RunError where
  | undefined (name : String)
  | missingInput (index length : Nat)
  | scalarInput (function : String)
  | emptyProgram
deriving DecidableEq

def RunError.message : RunError → String
  | .undefined name => s!"undefined function: {name}"
  | .missingInput index length =>
    s!"input index {index} out of range for input of length {length}"
  | .scalarInput function => s!"function {function} expects a vector input"
  | .emptyProgram => "program is empty"

namespace Expr

mutual

def eval (inputs : List Float) : Expr → Except RunError Float
  | .const v => .ok v
  | .int v => .ok (Float.ofInt v.toInt)
  | .input i =>
    match inputs[i.toNat]? with
    | some x => .ok x
    | none => .error (.missingInput i.toNat inputs.length)
  | .pow b e => do
    let x ← b.eval inputs
    .ok (Power.word x e)
  | .product fs => evalProduct inputs 1.0 fs
  | .sum ts => evalSum inputs 0.0 ts
  | .sub l r => do
    let x ← l.eval inputs
    let y ← r.eval inputs
    .ok (x - y)
  | .div l r => do
    let x ← l.eval inputs
    let y ← r.eval inputs
    .ok (x / y)

/-- Multiplies `acc` by the factors from left to right. -/
def evalProduct (inputs : List Float) (acc : Float) : List Expr → Except RunError Float
  | [] => .ok acc
  | e :: es => do
    let x ← e.eval inputs
    evalProduct inputs (acc * x) es

/-- Adds the terms to `acc` from left to right. -/
def evalSum (inputs : List Float) (acc : Float) : List Expr → Except RunError Float
  | [] => .ok acc
  | e :: es => do
    let x ← e.eval inputs
    evalSum inputs (acc + x) es

end

/-- The values of several expressions on the same inputs. -/
def evalAll (inputs : List Float) : List Expr → Except RunError (List Float)
  | [] => .ok []
  | e :: es => do
    let x ← e.eval inputs
    let xs ← evalAll inputs es
    .ok (x :: xs)

end Expr

end RegressionScript
