import RegressionScript.Model.Basic
import RegressionScript.Name
import RegressionScript.Text.Quoted

/-!
# Checks of a single model

Each check looks at one node of the tree and reports the first thing that is wrong with it.
-/

namespace RegressionScript

set_option autoImplicit false

/-- What is wrong with the data of a model. -/
inductive DataError where
  | lengths (estimator left : String) (leftLength : Nat) (right : String) (rightLength : Nat)
  | ragged (row expected got : Nat)
  | empty (estimator field : String)
  | stepName (name : String)
  | repeatedStep (name : String)
  | unfittedSearch
deriving DecidableEq

def DataError.message : DataError → String
  | .lengths estimator left leftLength right rightLength =>
    s!"{estimator}: {left} has length {leftLength} but {right} has length {rightLength}"
  | .ragged row expected got =>
    s!"exponent table row {row} has {got} columns, expected {expected}"
  | .empty estimator field => s!"{estimator}: {field} is empty"
  | .stepName name => s!"invalid pipeline step name: {Quoted.quote name}"
  | .repeatedStep name => s!"duplicate pipeline step name: {Quoted.quote name}"
  | .unfittedSearch =>
    "search wrapper has no best estimator (was it fitted with refit disabled?)"

namespace PolynomialFeatures

/-- Checks that the rows, the first of which is number `row`, have the expected length. -/
def checkRowsFrom (expected row : Nat) : List (List UInt32) → Except DataError Unit
  | [] => .ok ()
  | powers :: rest =>
    if powers.length = expected then checkRowsFrom expected (row + 1) rest
    else .error (.ragged row expected powers.length)

/-- Checks that all rows have the length of the first. -/
def checkRows (rows : List (List UInt32)) : Except DataError Unit :=
  checkRowsFrom (PolynomialFeatures.mk rows).inputs 0 rows

def check (p : PolynomialFeatures) : Except DataError Unit :=
  if p.powers.isEmpty then .error (.empty "PolynomialFeatures" "powers")
  else checkRows p.powers

/-- A table of exponents that has been checked. -/
def ofRows (rows : List (List UInt32)) : Except DataError PolynomialFeatures := do
  checkRows rows
  check ⟨rows⟩
  .ok ⟨rows⟩

end PolynomialFeatures

namespace StandardScaler

def check (s : StandardScaler) : Except DataError Unit :=
  if s.mean.length ≠ s.scale.length then
    .error (.lengths "StandardScaler" "mean" s.mean.length "scale" s.scale.length)
  else if s.mean.isEmpty then .error (.empty "StandardScaler" "mean")
  else .ok ()

/-- A scaler that has been checked. -/
def ofLists (mean scale : List Float) : Except DataError StandardScaler := do
  check ⟨mean, scale⟩
  .ok ⟨mean, scale⟩

end StandardScaler

namespace Model

/-- Checks names in order: each is a step name and none of those before it. -/
def checkNames (seen : List String) : List String → Except DataError Unit
  | [] => .ok ()
  | name :: names =>
    if !Name.isStepName name then .error (.stepName name)
    else if seen.contains name then .error (.repeatedStep name)
    else checkNames (name :: seen) names

def checkSteps (steps : List Step) : Except DataError Unit :=
  if steps.isEmpty then .error (.empty "Pipeline" "steps")
  else checkNames [] (steps.map Step.name)

/-- A pipeline that has been checked. -/
def ofSteps (steps : List Step) : Except DataError Model := do
  checkSteps steps
  .ok (.pipeline steps)

/-- The model that a search has found. -/
def bestEstimator : Option Model → Except DataError Model
  | some m => .ok m
  | none => .error .unfittedSearch

/-- The check of the node at the root. A linear model and an unsupported one have none. -/
def check? : Model → Option (Except DataError Unit)
  | .pipeline steps => some (checkSteps steps)
  | .search best => some ((bestEstimator best).map fun _ => ())
  | .polynomial p => some p.check
  | .scaler s => some s.check
  | .linear _ => none
  | .unsupported _ => none

end Model

end RegressionScript
