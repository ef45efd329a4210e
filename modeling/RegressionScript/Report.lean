import RegressionScript.Compile
import RegressionScript.Program.Run

/-!
# Reports of what is done

The events of compiling, exporting and running, in the order in which they happen if the steps of a
pipeline are compiled one after another. An event is reported when the work it names begins or its
check has passed, so that a failure ends the list.
-/

namespace RegressionScript

set_option autoImplicit false

inductive Event where
  | exporting (kind name : String)
  | exported (name : String) (functions bytes : Nat)
  | unwrapping (name : String)
  | pipeline (name : String) (steps : Nat)
  | polynomial (inputs outputs : Nat)
  | scaler (features : Nat)
  | linear (written coefficients : Nat)
  | evaluating (name : String)
deriving DecidableEq

namespace Event

/-- The parts of the library that report. -/
inductive Source where
  | script
  | body
  | run

inductive Level where
  | debug
  | trace

def source : Event → Source
  | .exporting .. | .exported .. | .unwrapping _ | .pipeline .. => .script
  | .polynomial .. | .scaler _ | .linear .. => .body
  | .evaluating _ => .run

def level : Event → Level
  | .exporting .. | .exported .. => .debug
  | _ => .trace

def message : Event → String
  | .exporting kind name => s!"exporting {kind} as {name}"
  | .exported name functions bytes => s!"exported {name}: {functions} functions, {bytes} bytes"
  | .unwrapping name => s!"{name}: unwrapping search to its best estimator"
  | .pipeline name steps => s!"{name}: pipeline of {steps} steps"
  | .polynomial inputs outputs => s!"polynomial features: {inputs} -> {outputs}"
  | .scaler features => s!"standard scaler: {features} features"
  | .linear written coefficients =>
    s!"linear model: {written} of {coefficients} coefficients non-zero"
  | .evaluating name => s!"evaluating {name}"

end Event

namespace PolynomialFeatures

def bodyEvents (p : PolynomialFeatures) : List Event :=
  match p.check with
  | .ok () => [.polynomial p.inputs p.outputs]
  | .error _ => []

end PolynomialFeatures

namespace StandardScaler

def bodyEvents (s : StandardScaler) : List Event :=
  match s.check with
  | .ok () => [.scaler s.mean.length]
  | .error _ => []

end StandardScaler

namespace LinearModel

def bodyEvents (m : LinearModel) : List Event :=
  [.linear (m.coefficients.countP isWritten) m.coefficients.length]

end LinearModel

namespace Model

/-- Events of the work under a name that functions can have. -/
def namedEvents (name : String) (events : List Event) : List Event :=
  if Name.isIdentifier name then events else []

mutual

def compileEvents : Model → String → List Event
  | .pipeline steps, name => namedEvents name <|
    match checkSteps steps with
    | .error _ => []
    | .ok () => .pipeline name steps.length :: stepEvents name steps
  | .search none, name => namedEvents name [.unwrapping name]
  | .search (some m), name => namedEvents name (.unwrapping name :: m.compileEvents name)
  | .polynomial p, name => namedEvents name p.bodyEvents
  | .scaler s, name => namedEvents name s.bodyEvents
  | .linear l, name => namedEvents name l.bodyEvents
  | .unsupported _, _ => []

/-- The events of the steps up to the first that does not compile. -/
def stepEvents (name : String) : List Step → List Event
  | [] => []
  | ⟨step, m⟩ :: rest =>
    m.compileEvents (Name.ofStep name step) ++
      match m.compile (Name.ofStep name step) with
      | .ok _ => stepEvents name rest
      | .error _ => []

end

def scriptEvents (m : Model) (name : String) (s : Settings) : List Event :=
  match s.check with
  | .error _ => []
  | .ok () =>
    .exporting m.kind name :: m.compileEvents name ++
      match m.compile name with
      | .ok p => [.exported name p.functions.length (p.render s).utf8ByteSize]
      | .error _ => []

end Model

namespace Program

def callEvents (p : Program) (name : String) (v : Value) : List Event :=
  (p.callTrace name v).map .evaluating

def evalEvents (p : Program) (v : Value) : List Event :=
  (p.evalTrace v).map .evaluating

end Program

end RegressionScript
