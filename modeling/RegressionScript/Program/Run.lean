import RegressionScript.Program.Basic

/-!
# Running programs

A call looks its function up by name in the whole program. In a program whose calls go to earlier
functions, calls are nested no deeper than there are functions. A call nested deeper than that
counts as one of an undefined function.
-/

namespace RegressionScript.Program

set_option autoImplicit false

/-- The value of a function, with at most `depth` calls nested in each other. -/
def callWithin (p : Program) : Nat → String → Value → Except RunError Value
  | 0, name, _ => .error (.undefined name)
  | depth + 1, name, v =>
    match p.get? name with
    | none => .error (.undefined name)
    | some f => f.apply (p.callWithin depth) v

/-- The value of a function of the program. -/
def call (p : Program) (name : String) (v : Value) : Except RunError Value :=
  p.callWithin p.functions.length name v

/-- The value of the function that was defined last. -/
def eval (p : Program) (v : Value) : Except RunError Value :=
  match p.entry? with
  | none => .error .emptyProgram
  | some f => f.apply p.call v

/-! ## The functions entered -/

/-- The functions entered by the calls of a chain, up to the first that fails. -/
def chainTrace (call : String → Value → Except RunError Value)
    (trace : String → Value → List String) : List String → Value → List String
  | [], _ => []
  | callee :: callees, v =>
    trace callee v ++
      match call callee v with
      | .ok w => chainTrace call trace callees w
      | .error _ => []

/-- The functions entered by applying a function, itself first. -/
def applyTrace (call : String → Value → Except RunError Value)
    (trace : String → Value → List String) (f : Function) (v : Value) : List String :=
  f.name :: chainTrace call trace f.body.callees v

def traceWithin (p : Program) : Nat → String → Value → List String
  | 0, _, _ => []
  | depth + 1, name, v =>
    match p.get? name with
    | none => []
    | some f => applyTrace (p.callWithin depth) (p.traceWithin depth) f v

/-- The functions entered by a call, in order. -/
def callTrace (p : Program) (name : String) (v : Value) : List String :=
  p.traceWithin p.functions.length name v

/-- The functions entered by an evaluation, in order. -/
def evalTrace (p : Program) (v : Value) : List String :=
  match p.entry? with
  | none => []
  | some f => applyTrace p.call p.callTrace f v

end RegressionScript.Program
