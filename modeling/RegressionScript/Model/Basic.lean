/-!
# Fitted models

A model is a tree: pipelines and searches hold other models, and the leaves hold fitted numbers.
Nothing here says that the numbers fit together.
-/

namespace RegressionScript

set_option autoImplicit false

/-- Products of powers of the inputs: one row of exponents for each output. -/
structure PolynomialFeatures where
  powers : List (List UInt32)
deriving DecidableEq

namespace PolynomialFeatures

def inputs (p : PolynomialFeatures) : Nat :=
  match p.powers with
  | [] => 0
  | row :: _ => row.length

def outputs (p : PolynomialFeatures) : Nat :=
  p.powers.length

end PolynomialFeatures

/-- Every input less its mean, divided by its scale. -/
structure StandardScaler where
  mean : List Float
  scale : List Float
deriving DecidableEq

/-- A weighted sum of the inputs and a constant. -/
structure LinearModel where
  coefficients : List Float
  intercept : Float
deriving DecidableEq

mutual

inductive Model where
  | pipeline (steps : List Step)
  | search (best : Option Model)
  | polynomial (features : PolynomialFeatures)
  | scaler (scaler : StandardScaler)
  | linear (model : LinearModel)
  | unsupported (estimator : String)

structure Step where
  name : String
  estimator : Model

end

namespace Model

/-- The name of the kind of model, which for an unsupported one is its own. -/
def kind : Model → String
  | .pipeline _ => "Pipeline"
  | .search _ => "GridSearch"
  | .polynomial _ => "PolynomialFeatures"
  | .scaler _ => "StandardScaler"
  | .linear _ => "LinearModel"
  | .unsupported estimator => estimator

mutual

/-- Equality that compares the numbers as floating-point numbers, so that one that is not a
number equals nothing and the two zeros are equal. -/
def beq : Model → Model → Bool
  | .pipeline ss, .pipeline ts => beqSteps ss ts
  | .search none, .search none => true
  | .search (some m), .search (some n) => m.beq n
  | .polynomial p, .polynomial q => p.powers == q.powers
  | .scaler s, .scaler t => s.mean == t.mean && s.scale == t.scale
  | .linear l, .linear m => l.coefficients == m.coefficients && l.intercept == m.intercept
  | .unsupported e, .unsupported f => e == f
  | _, _ => false

def beqSteps : List Step → List Step → Bool
  | [], [] => true
  | ⟨a, m⟩ :: ss, ⟨b, n⟩ :: ts => a == b && m.beq n && beqSteps ss ts
  | _, _ => false

end

instance : BEq Model := ⟨beq⟩

end Model

end RegressionScript
