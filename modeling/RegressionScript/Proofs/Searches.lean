import RegressionScript.Proofs.Emission

/-!
# Models without their searches

A search stands for the model that it has found, wherever in the tree it is. Replacing every such
search by its model leaves names, order and checks of the steps as they were, so that the same
program or the same error comes of it.
-/

namespace RegressionScript.Model

set_option autoImplicit false

mutual

/-- Every search that has found a model is replaced by the model, at any depth. A search that has
found none stays. -/
def strip : Model → Model
  | .pipeline steps => .pipeline (stripSteps steps)
  | .search none => .search none
  | .search (some m) => m.strip
  | .polynomial p => .polynomial p
  | .scaler s => .scaler s
  | .linear l => .linear l
  | .unsupported estimator => .unsupported estimator

def stripSteps : List Step → List Step
  | [] => []
  | ⟨step, m⟩ :: rest => ⟨step, m.strip⟩ :: stripSteps rest

end

variable {m : Model}

theorem map_name_stripSteps (steps : List Step) :
    (stripSteps steps).map Step.name = steps.map Step.name := by
  induction steps with
  | nil => rfl
  | cons s rest ih =>
    obtain ⟨step, m⟩ := s
    rw [stripSteps, List.map_cons, List.map_cons, ih]

/-! ## What is left of the tree -/

def isFitted : Model → Bool
  | .search (some _) => true
  | _ => false

mutual

/-- The nodes that are left are all others, in the same order, each stripped in turn. -/
theorem nodes_strip : ∀ m : Model,
    m.strip.nodes = (m.nodes.filter fun n => !n.isFitted).map strip
  | .pipeline steps => by
    rw [strip, nodes, nodes, List.filter_cons_of_pos rfl, List.map_cons, strip,
      stepNodes_stripSteps steps]
  | .search none => by
    rw [strip, nodes]
    rfl
  | .search (some m) => by
    rw [strip, nodes, List.filter_cons_of_neg (by simp [isFitted]), nodes_strip m]
  | .polynomial p => rfl
  | .scaler s => rfl
  | .linear l => rfl
  | .unsupported estimator => rfl

theorem stepNodes_stripSteps : ∀ steps : List Step,
    stepNodes (stripSteps steps) = ((stepNodes steps).filter fun n => !n.isFitted).map strip
  | [] => rfl
  | ⟨step, m⟩ :: rest => by
    rw [stripSteps, stepNodes, stepNodes, nodes_strip m, stepNodes_stripSteps rest,
      List.filter_append, List.map_append]

end

theorem isFitted_strip (h : m.isFitted = false) : m.strip.isFitted = false := by
  cases m with
  | search best =>
    cases best with
    | none => rfl
    | some m => cases h
  | _ => rfl

theorem isFitted_of_mem_nodes_strip {n : Model} (h : n ∈ m.strip.nodes) : n.isFitted = false := by
  rw [nodes_strip] at h
  obtain ⟨k, hk, rfl⟩ := List.mem_map.mp h
  have hunfitted := (List.mem_filter.mp hk).2
  rw [Bool.not_eq_true'] at hunfitted
  exact isFitted_strip hunfitted

/-! ## Compilation -/

theorem checkSteps_stripSteps (steps : List Step) :
    checkSteps (stripSteps steps) = checkSteps steps := by
  have hempty : (stripSteps steps).isEmpty = steps.isEmpty := by
    rw [← List.isEmpty_map (f := Step.name), map_name_stripSteps, List.isEmpty_map]
  rw [checkSteps, checkSteps, hempty, map_name_stripSteps]

theorem named_named (name : String) (x : Except BuildError Program) :
    named name (named name x) = named name x := by
  unfold named
  split <;> rfl

theorem named_compileWith (m : Model) (reporting : Reporting) (name : String) :
    named name (m.compileWith reporting name) = m.compileWith reporting name := by
  cases m with
  | search best =>
    cases best with
    | none => rw [compileWith, named_named]
    | some m => rw [compileWith, named_named]
  | _ => rw [compileWith, named_named]

mutual

theorem compileWith_strip : ∀ (m : Model) (reporting : Reporting) (name : String),
    m.strip.compileWith reporting name = m.compileWith reporting name
  | .pipeline steps, reporting, name => by
    rw [strip, compileWith, compileWith, checkSteps_stripSteps, map_name_stripSteps,
      stepResults_stripSteps steps reporting name 0]
  | .search none, _, name => rfl
  -- the name is checked once more for the model than for the search around it
  | .search (some m), reporting, name => by
    rw [strip, compileWith_strip m reporting name, compileWith, named_compileWith]
  | .polynomial p, _, name => rfl
  | .scaler s, _, name => rfl
  | .linear l, _, name => rfl
  | .unsupported estimator, _, name => rfl

theorem stepResults_stripSteps : ∀ (steps : List Step) (reporting : Reporting) (name : String)
    (i : Nat), stepResults reporting name i (stripSteps steps) = stepResults reporting name i steps
  | [], _, name, i => rfl
  | ⟨step, m⟩ :: rest, reporting, name, i => by
    rw [stripSteps, stepResults, stepResults, compileWith_strip m, stepResults_stripSteps rest]

end

theorem scriptWith_strip (m : Model) (reporting : Reporting) (name : String) (s : Settings) :
    m.strip.scriptWith reporting name s = m.scriptWith reporting name s := by
  rw [scriptWith, scriptWith, compileWith_strip]

/-- Searches are invisible: without them, at any depth, a model gives the same program, the same
code and the same errors under every name and with all settings, whichever failing steps are
reported. None that has found a model is left. -/
theorem searches_are_invisible (m : Model) :
    (∀ (reporting : Reporting) (name : String),
      m.compileWith reporting name = m.strip.compileWith reporting name) ∧
    (∀ (reporting : Reporting) (name : String) (s : Settings),
      m.scriptWith reporting name s = m.strip.scriptWith reporting name s) ∧
    ∀ n ∈ m.strip.nodes, ∀ best : Model, n ≠ .search (some best) := by
  refine ⟨?_, ?_, ?_⟩
  · intro reporting name
    exact (compileWith_strip m reporting name).symm
  · intro reporting name s
    exact (scriptWith_strip m reporting name s).symm
  · rintro n hn best rfl
    have hunfitted := isFitted_of_mem_nodes_strip hn
    cases hunfitted

end RegressionScript.Model
