import RegressionScript.Json.Reader
import RegressionScript.Json.Writer
import RegressionScript.Model.Basic

/-!
# Models as JSON

A model is written as an object whose `type` names its kind, followed by the fields of that kind.
It is read with the members in any order, or from an array of the kind and the values of the
fields in order.
-/

namespace RegressionScript.Codec

set_option autoImplicit false

inductive Kind where
  | pipeline
  | gridSearch
  | polynomialFeatures
  | standardScaler
  | linear
  | unsupported

namespace Kind

/-- The kinds, in the order in which they are numbered. -/
def all : List Kind :=
  [.pipeline, .gridSearch, .polynomialFeatures, .standardScaler, .linear, .unsupported]

def name : Kind → String
  | .pipeline => "pipeline"
  | .gridSearch => "grid_search"
  | .polynomialFeatures => "polynomial_features"
  | .standardScaler => "standard_scaler"
  | .linear => "linear"
  | .unsupported => "unsupported"

def fields : Kind → List Json.Field
  | .pipeline => [⟨"steps", false⟩]
  | .gridSearch => [⟨"best_estimator", true⟩]
  | .polynomialFeatures => [⟨"powers", false⟩]
  | .standardScaler => [⟨"mean", false⟩, ⟨"scale", false⟩]
  | .linear => [⟨"coefficients", false⟩, ⟨"intercept", false⟩]
  | .unsupported => [⟨"estimator", false⟩]

def ofName? (name : String) : Option Kind :=
  all.find? fun kind => kind.name == name

def ofNumber? (n : Nat) : Option Kind :=
  all[n]?

end Kind

def stepFields : List Json.Field :=
  [⟨"name", false⟩, ⟨"estimator", false⟩]

/-! ## Writing

How floating-point numbers are spelled is left open.
-/

/-- Fields with the texts of their values. -/
def members (fields : List Json.Field) (values : List (List Char)) : List (String × List Char) :=
  (fields.map Json.Field.name).zip values

def record (kind : Kind) (values : List (List Char)) : List Char :=
  Json.Writer.object (("type", Json.Writer.string kind.name) :: members kind.fields values)

def powers (rows : List (List UInt32)) : List Char :=
  Json.Writer.array (rows.map fun row =>
    Json.Writer.array (row.map fun power => Json.Writer.natural power.toNat))

section

variable (number : Float → List Char)

def floats (xs : List Float) : List Char :=
  Json.Writer.array (xs.map number)

mutual

def text : Model → List Char
  | .pipeline steps => record .pipeline [Json.Writer.array (stepTexts steps)]
  | .search none => record .gridSearch ["null".toList]
  | .search (some m) => record .gridSearch [text m]
  | .polynomial p => record .polynomialFeatures [powers p.powers]
  | .scaler s => record .standardScaler [floats number s.mean, floats number s.scale]
  | .linear l => record .linear [floats number l.coefficients, number l.intercept]
  | .unsupported estimator => record .unsupported [Json.Writer.string estimator]

def stepTexts : List Step → List (List Char)
  | [] => []
  | ⟨name, m⟩ :: rest =>
    Json.Writer.object (members stepFields [Json.Writer.string name, text m]) :: stepTexts rest

end

end

/-! ## Reading -/

/-- The kind that a value names. Inside another model its number will do. -/
def kind? (nested : Bool) (tag : Json) : Option Kind :=
  match tag with
  | .string (some name) => Kind.ofName? name
  | _ => if nested then (tag.natural? UInt64.size).bind Kind.ofNumber? else none

/-- The kind of a model and the values of its fields. -/
def tagged? (nested : Bool) : Json → Option (Kind × List Json)
  | .array (tag :: values) => do
    let kind ← kind? nested tag
    let values ← Json.record? kind.fields (.array values)
    some (kind, values)
  | .object members => do
    let tag ← Json.Field.value? members ⟨"type", false⟩
    let kind ← kind? nested tag
    let values ← Json.record? kind.fields (.object members)
    some (kind, values)
  | _ => none

/-- A step, whose model is read by `read`. -/
def step? (read : Json → Option Model) (j : Json) : Option Step := do
  match ← Json.record? stepFields j with
  | [name, estimator] => do
    let name ← name.string?
    let estimator ← read estimator
    some ⟨name, estimator⟩
  | _ => none

def power? (j : Json) : Option UInt32 :=
  (j.natural? UInt32.size).map Nat.toUInt32

/-- The model of a kind with the values of its fields, in which nested models are read by
`read`. -/
def ofFields? (read : Json → Option Model) : Kind → List Json → Option Model
  | .pipeline, [steps] => (steps.list? (step? read)).map .pipeline
  | .gridSearch, [.null] => some (.search none)
  | .gridSearch, [best] => (read best).map fun m => .search (some m)
  | .polynomialFeatures, [powers] =>
    (powers.list? (Json.list? power?)).map fun rows => .polynomial ⟨rows⟩
  | .standardScaler, [mean, scale] => do
    let mean ← mean.list? Json.float?
    let scale ← scale.list? Json.float?
    some (.scaler ⟨mean, scale⟩)
  | .linear, [coefficients, intercept] => do
    let coefficients ← coefficients.list? Json.float?
    let intercept ← intercept.float?
    some (.linear ⟨coefficients, intercept⟩)
  | .unsupported, [estimator] => estimator.string?.map .unsupported
  | _, _ => none

/-- The model that a value stands for, with at most `levels` models nested in each other. -/
def model? : Nat → Bool → Json → Option Model
  | 0, _, _ => none
  | levels + 1, nested, j => do
    let (kind, values) ← tagged? nested j
    ofFields? (model? levels true) kind values

/-- How deep the text of a model may nest arrays and objects. -/
def maxDepth : Nat := 127

end RegressionScript.Codec

namespace RegressionScript.Model

/-- The JSON text of a model, in which floating-point numbers are spelled by `number`. -/
def toJsonWith (m : Model) (number : Float → List Char) : String :=
  String.ofList (Codec.text number m)

/-- The JSON text of a model. -/
def toJson (m : Model) : String :=
  m.toJsonWith Json.Writer.float

/-- Reads a model from a JSON text. Its data are not checked. -/
def parse? (text : String) : Option Model := do
  let j ← Json.parse? text
  if j.isSound && j.depth ≤ Codec.maxDepth then Codec.model? Codec.maxDepth false j else none

end RegressionScript.Model
