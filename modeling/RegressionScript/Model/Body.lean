import RegressionScript.Model.Check
import RegressionScript.Program.Function

/-!
# Function bodies of the leaves

The rule by which each kind of leaf becomes arithmetic on the inputs. Inputs keep the index of
their column, also where other columns are left out.
-/

namespace RegressionScript

set_option autoImplicit false

namespace PolynomialFeatures

/-- The factors for the columns from `column` on. A power of zero is left out and one of one is
the input itself. -/
def factorsFrom (column : Nat) : List UInt32 → List Expr
  | [] => []
  | power :: rest =>
    if power = 0 then factorsFrom (column + 1) rest
    else if power = 1 then .input column.toUInt32 :: factorsFrom (column + 1) rest
    else .pow (.input column.toUInt32) power :: factorsFrom (column + 1) rest

/-- The product for one row, which is one if no column takes part. -/
def monomial (row : List UInt32) : Expr :=
  match factorsFrom 0 row with
  | [] => .int 1
  | factors => .product factors

def body (p : PolynomialFeatures) : Except DataError Body := do
  p.check
  .ok (.vector (p.powers.map monomial))

end PolynomialFeatures

namespace StandardScaler

/-- The scaled inputs from `column` on. -/
def elementsFrom (column : Nat) : List Float → List Float → List Expr
  | mean :: means, scale :: scales =>
    .div (.sub (.input column.toUInt32) (.const mean)) (.const scale) ::
      elementsFrom (column + 1) means scales
  | _, _ => []

def body (s : StandardScaler) : Except DataError Body := do
  s.check
  .ok (.vector (elementsFrom 0 s.mean s.scale))

end StandardScaler

namespace LinearModel

/-- Whether a coefficient is written. Only the two zeros are left out. -/
def isWritten (coefficient : Float) : Bool :=
  !(Binary64.ofFloat coefficient).isZero

/-- The weighted inputs from `column` on, without those of coefficient zero. -/
def termsFrom (column : Nat) : List Float → List Expr
  | [] => []
  | coefficient :: rest =>
    if isWritten coefficient then
      .product [.const coefficient, .input column.toUInt32] :: termsFrom (column + 1) rest
    else termsFrom (column + 1) rest

def body (m : LinearModel) : Body :=
  .scalar (.sum (termsFrom 0 m.coefficients ++ [.const m.intercept]))

end LinearModel

end RegressionScript
