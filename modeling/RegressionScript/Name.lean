/-!
# Names

Which texts can name a function of the generated code, and which a step of a pipeline.
-/

namespace RegressionScript.Name

set_option autoImplicit false

/-- Letters, digits and the underscore, of ASCII only. -/
def isWordChar (c : Char) : Bool :=
  c.isAlphanum || c == '_'

/-- A function name does not begin with a digit. -/
def isIdentifier (s : String) : Bool :=
  match s.toList with
  | [] => false
  | c :: cs => (c.isAlpha || c == '_') && cs.all isWordChar

/-- A step name follows the name of its pipeline, so that it may begin with a digit. -/
def isStepName (s : String) : Bool :=
  !s.toList.isEmpty && s.toList.all isWordChar

/-- The name of the function for a step of a pipeline. -/
def ofStep (pipeline step : String) : String :=
  pipeline ++ "_" ++ step

end RegressionScript.Name
