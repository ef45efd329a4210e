import RegressionScript.Model.Body
import RegressionScript.Program.Basic

/-!
# From models to programs

A leaf becomes one function. A pipeline becomes the functions of its steps, in order, and after
them one that passes its argument through the steps. A search stands for the model it has found.

The steps of a pipeline are compiled at the same time. Their programs are put together in the order
of the steps, but if several steps fail, any one of their errors is reported. Which one is a
parameter here.
-/

namespace RegressionScript

set_option autoImplicit false

/-- Why no code comes of a model. -/
inductive BuildError where
  | unsupported (kind : String)
  | malformed (error : DataError)
  | functionName (name : String)
  | definition (error : DefinitionError)
  | settings (error : SettingsError)
deriving DecidableEq

def BuildError.message : BuildError → String
  | .unsupported kind => s!"unsupported model kind: {kind}"
  | .malformed error => s!"malformed model data: {error.message}"
  | .functionName name => s!"invalid function name: {Quoted.quote name}"
  | .definition error => error.message
  | .settings error => s!"invalid export configuration: {error.message}"

/-! ## Results of the steps -/

section Collecting

variable {ε α : Type}

/-- The positions of the results that are errors. -/
def failing (results : List (Except ε α)) : List Nat :=
  (List.range results.length).filter fun i => results[i]?.any fun result => !result.isOk

/-- Which of its failing steps a pipeline reports. A place is the positions of steps that lead from
the root to the pipeline, so that every pipeline of a tree may choose in a way of its own. -/
structure Reporting where
  pick (place failing : List Nat) : Nat
  pick_mem : ∀ (place : List Nat) {failing : List Nat}, failing ≠ [] →
    pick place failing ∈ failing

namespace Reporting

/-- The first failing step is reported, as when one step is compiled after another. -/
def first : Reporting where
  pick _ failing := failing.headD 0
  pick_mem := by
    intro _ failing h
    cases failing with
    | nil => exact absurd rfl h
    | cons i rest => exact List.mem_cons_self

/-- The choices inside a step. -/
def inStep (reporting : Reporting) (i : Nat) : Reporting where
  pick place := reporting.pick (i :: place)
  pick_mem place := reporting.pick_mem (i :: place)

/-- All values in order, or else the error of the failing result that is picked. -/
def collect (reporting : Reporting) (results : List (Except ε α)) : Except ε (List α) :=
  -- where nothing fails, what is picked is no error
  match results[reporting.pick [] (failing results)]? with
  | some (.error e) => .error e
  | _ => .ok (results.filterMap Except.toOption)

end Reporting

end Collecting

/-! ## Models -/

namespace Model

/-- The program of a single function. -/
def leaf (name : String) (body : Except DataError Body) : Except BuildError Program :=
  match body with
  | .ok body => .ok ⟨[⟨name, body⟩]⟩
  | .error e => .error (.malformed e)

/-- The programs of the steps in one, and after them the function that calls the steps. -/
def chain (name : String) (steps : List String) (programs : List Program) :
    Except DefinitionError Program := do
  let merged ← programs.foldlM Program.append Program.empty
  Program.accepted (merged.push ⟨name, .chain (steps.map (Name.ofStep name))⟩)

/-- A program that is built only under a name that functions can have. -/
def named (name : String) (program : Except BuildError Program) : Except BuildError Program :=
  if Name.isIdentifier name then program else .error (.functionName name)

mutual

/-- The program whose last function computes the model. -/
def compileWith : Model → Reporting → String → Except BuildError Program
  | .pipeline steps, reporting, name => named name <|
    match checkSteps steps with
    | .error e => .error (.malformed e)
    | .ok () => do
      let programs ← reporting.collect (stepResults reporting name 0 steps)
      (chain name (steps.map Step.name) programs).mapError .definition
  | .search none, _, name => named name (.error (.malformed .unfittedSearch))
  | .search (some m), reporting, name => named name (m.compileWith reporting name)
  | .polynomial p, _, name => named name (leaf name p.body)
  | .scaler s, _, name => named name (leaf name s.body)
  | .linear l, _, name => named name (leaf name (.ok l.body))
  | .unsupported estimator, _, name => named name (.error (.unsupported estimator))

/-- What becomes of each step under the name of the pipeline and its own. The steps are those from
position `i` on. -/
def stepResults (reporting : Reporting) (name : String) :
    Nat → List Step → List (Except BuildError Program)
  | _, [] => []
  | i, ⟨step, m⟩ :: rest =>
    m.compileWith (reporting.inStep i) (Name.ofStep name step) ::
      stepResults reporting name (i + 1) rest

end

/-- The code of a model under a name. The settings are checked before anything else. -/
def scriptWith (m : Model) (reporting : Reporting) (name : String) (s : Settings) :
    Except BuildError String :=
  match s.check with
  | .error e => .error (.settings e)
  | .ok () => (m.compileWith reporting name).map (Program.render s)

/-- Compilation of one step after another. -/
def compile (m : Model) (name : String) : Except BuildError Program :=
  m.compileWith .first name

def script (m : Model) (name : String) (s : Settings) : Except BuildError String :=
  m.scriptWith .first name s

end Model

end RegressionScript
