import RegressionScript.Model.Basic
import RegressionScript.Number.Decimal

/-!
# Outlines of models

The tree of a model as indented lines, plain or with the colours of a terminal.
-/

namespace RegressionScript.Outline

set_option autoImplicit false

/-- A piece of an outline that may be coloured: the name of a kind, the name of a step, or
something that cannot be exported. -/
inductive Accent where
  | kind
  | step
  | alarm

/-- The terminal sequence that switches an accent on. -/
def Accent.sequence : Accent → List Char
  | .kind => "\x1b[36m".toList
  | .step => "\x1b[1m".toList
  | .alarm => "\x1b[31m".toList

/-- The terminal sequence that switches all accents off. -/
def reset : List Char :=
  "\x1b[0m".toList

/-- Switches an accent on again wherever the text itself switches it off. -/
def renew (on : List Char) : List Char → List Char
  | '\x1b' :: '[' :: '0' :: 'm' :: cs => reset ++ on ++ renew on cs
  | c :: cs => c :: renew on cs
  | [] => []

/-- A text with its accent, if colours are wanted. -/
def paint (color : Bool) (accent : Accent) (text : String) : String :=
  if color then
    String.ofList (accent.sequence ++ renew accent.sequence text.toList ++ reset)
  else text

/-- A number in the fewest digits that read back, without exponent. A tie goes up. -/
def number (x : Float) : String :=
  match Binary64.ofFloat x with
  | .nan => "NaN"
  | .infinite negative => if negative then "-inf" else "inf"
  | .finite negative significand exponent =>
    let digits := (Decimal.shortest .up significand exponent).positional
    String.ofList (if negative then '-' :: digits else digits)

def line (depth : Nat) (text : String) : String :=
  String.ofList (List.replicate (2 * depth) ' ') ++ text ++ "\n"

mutual

def ofModel (color : Bool) (depth : Nat) : Model → String
  | .pipeline steps =>
    line depth (paint color .kind "Pipeline") ++ ofSteps color (depth + 1) steps
  | .search none =>
    line depth (paint color .kind "GridSearch") ++
      line (depth + 1) (paint color .alarm "<no best estimator>")
  | .search (some m) =>
    line depth (paint color .kind "GridSearch") ++ ofModel color (depth + 1) m
  | .polynomial p =>
    let kind := paint color .kind "PolynomialFeatures"
    line depth s!"{kind} ({p.inputs} -> {p.outputs} features)"
  | .scaler s =>
    let kind := paint color .kind "StandardScaler"
    line depth s!"{kind} ({s.mean.length} features)"
  | .linear m =>
    let kind := paint color .kind "LinearModel"
    let intercept := number m.intercept
    line depth s!"{kind} ({m.coefficients.length} coefficients, intercept {intercept})"
  | .unsupported estimator => line depth (paint color .alarm estimator ++ " (unsupported)")

/-- The steps of a pipeline, each under its name. -/
def ofSteps (color : Bool) (depth : Nat) : List Step → String
  | [] => ""
  | ⟨name, m⟩ :: rest =>
    line depth (paint color .step name ++ ":") ++ ofModel color (depth + 1) m ++
      ofSteps color depth rest

end

end RegressionScript.Outline

namespace RegressionScript.Model

/-- The outline of a model. -/
def outline (m : Model) (color : Bool) : String :=
  Outline.ofModel color 0 m

end RegressionScript.Model
