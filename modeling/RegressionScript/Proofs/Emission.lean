import Mathlib.Data.List.Nodup
import Mathlib.Data.Set.List
import RegressionScript.Compile
import RegressionScript.Proofs.WellDefined

/-!
# The functions that a model becomes

The functions of a model are listed here by recursion on the tree alone, those of the steps before
the function of their pipeline. Compilation builds exactly this list, and it fails only at a name
that functions cannot have, at a node that does not pass its check or has no rule, or where the
list would define a name twice.
-/

namespace RegressionScript

set_option autoImplicit false

/-! ## Results of the steps -/

section Collecting

variable {ε α : Type} {results : List (Except ε α)}

theorem mem_failing_iff {i : Nat} : i ∈ failing results ↔ ∃ e, results[i]? = some (.error e) := by
  rw [failing, List.mem_filter, List.mem_range]
  constructor
  · rintro ⟨hi, hfails⟩
    rw [List.getElem?_eq_getElem hi] at hfails ⊢
    cases hr : results[i] with
    | error e => exact ⟨e, rfl⟩
    | ok a =>
      rw [hr] at hfails
      cases hfails
  · rintro ⟨e, he⟩
    exact ⟨(List.getElem?_eq_some_iff.mp he).1, by rw [he]; rfl⟩

theorem exists_map_ok_of_failing_eq_nil (h : failing results = []) :
    ∃ as : List α, results = as.map .ok := by
  have hok : results ∈ Set.range (List.map (Except.ok : α → Except ε α)) := by
    rw [Set.range_list_map]
    intro x hx
    cases x with
    | ok a => exact ⟨a, rfl⟩
    | error e =>
      obtain ⟨i, hi⟩ := List.getElem?_of_mem hx
      have hmem : i ∈ failing results := mem_failing_iff.mpr ⟨e, hi⟩
      rw [h] at hmem
      cases hmem
  obtain ⟨as, has⟩ := hok
  exact ⟨as, has.symm⟩

namespace Reporting

variable {reporting : Reporting}

/-- What is reported is the error of a step that failed. -/
theorem mem_of_collect_eq_error {e : ε} (h : reporting.collect results = .error e) :
    .error e ∈ results := by
  unfold collect at h
  split at h
  · rename_i d hd
    cases h
    exact List.mem_of_getElem? hd
  · cases h

theorem collect_map_ok (as : List α) :
    reporting.collect (as.map (Except.ok : α → Except ε α)) = .ok as := by
  unfold collect
  split
  · rename_i e he
    obtain ⟨a, -, ha⟩ := List.mem_map.mp (List.mem_of_getElem? he)
    cases ha
  · rw [List.filterMap_map]
    exact congrArg Except.ok List.filterMap_some

/-- Success does not depend on what would be reported. -/
theorem collect_eq_ok_iff {as : List α} :
    reporting.collect results = .ok as ↔ results = as.map .ok := by
  constructor
  · intro h
    by_cases hnone : failing results = []
    · obtain ⟨bs, rfl⟩ := exists_map_ok_of_failing_eq_nil hnone
      rw [collect_map_ok] at h
      rw [Except.ok.inj h]
    · obtain ⟨e, he⟩ := mem_failing_iff.mp (reporting.pick_mem [] hnone)
      rw [collect, he] at h
      cases h
  · rintro rfl
    exact collect_map_ok as

end Reporting

end Collecting

/-! ## Names of steps -/

namespace Name

theorem toList_ofStep (pipeline step : String) :
    (ofStep pipeline step).toList = pipeline.toList ++ '_' :: step.toList := by
  simp [ofStep]

theorem isIdentifier_ofStep {pipeline step : String} (hp : isIdentifier pipeline = true)
    (hs : isStepName step = true) : isIdentifier (ofStep pipeline step) = true := by
  unfold isIdentifier at hp ⊢
  rw [toList_ofStep]
  simp only [isStepName, Bool.and_eq_true] at hs
  cases h : pipeline.toList with
  | nil =>
    rw [h] at hp
    cases hp
  | cons c cs =>
    simp only [h, Bool.and_eq_true, List.cons_append, List.all_append, List.all_cons] at hp ⊢
    exact ⟨hp.1, hp.2, by decide, hs.2⟩

end Name

namespace Model

variable {m : Model} {name : String} {p : Program} {steps : List Step}

theorem isStepName_of_checkNames {seen names : List String} (h : checkNames seen names = .ok ()) :
    ∀ s ∈ names, Name.isStepName s = true := by
  induction names generalizing seen with
  | nil => simp
  | cons s names ih =>
    unfold checkNames at h
    split at h
    · cases h
    · rename_i hs
      split at h
      · cases h
      · intro t ht
        rcases List.mem_cons.mp ht with rfl | ht
        · simpa using hs
        · exact ih h t ht

theorem isStepName_of_checkSteps (h : checkSteps steps = .ok ()) :
    ∀ s ∈ steps, Name.isStepName s.name = true := by
  unfold checkSteps at h
  split at h
  · cases h
  · intro s hs
    exact isStepName_of_checkNames h s.name (List.mem_map_of_mem hs)

/-! ## Nodes -/

mutual

/-- The nodes of the tree, reached through steps and through the models that searches found. -/
def nodes : Model → List Model
  | .pipeline steps => .pipeline steps :: stepNodes steps
  | .search none => [.search none]
  | .search (some m) => .search (some m) :: m.nodes
  | .polynomial p => [.polynomial p]
  | .scaler s => [.scaler s]
  | .linear l => [.linear l]
  | .unsupported estimator => [.unsupported estimator]

def stepNodes : List Step → List Model
  | [] => []
  | ⟨_, m⟩ :: rest => m.nodes ++ stepNodes rest

end

def isSupported : Model → Bool
  | .unsupported _ => false
  | _ => true

/-- Whether the node at the root passes its own check. One that has no check passes. -/
def passesCheck (m : Model) : Bool :=
  match m.check? with
  | some (.error _) => false
  | _ => true

/-- Every node has a rule and passes its own check. -/
def Sound (m : Model) : Prop :=
  ∀ n ∈ m.nodes, n.isSupported = true ∧ n.passesCheck = true

theorem mem_stepNodes_iff {n : Model} :
    n ∈ stepNodes steps ↔ ∃ s ∈ steps, n ∈ s.estimator.nodes := by
  induction steps with
  | nil => simp [stepNodes]
  | cons s rest ih =>
    obtain ⟨step, m⟩ := s
    simp [stepNodes, ih]

theorem sound_pipeline_iff :
    (pipeline steps).Sound ↔ checkSteps steps = .ok () ∧ ∀ s ∈ steps, s.estimator.Sound := by
  have hroot : (pipeline steps).passesCheck = true ↔ checkSteps steps = .ok () := by
    simp only [passesCheck, check?]
    cases checkSteps steps <;> simp
  simp only [Sound, nodes, List.mem_cons, forall_eq_or_imp, mem_stepNodes_iff, isSupported,
    hroot, true_and]
  constructor
  · rintro ⟨hc, hn⟩
    exact ⟨hc, fun s hs n hmem => hn n ⟨s, hs, hmem⟩⟩
  · rintro ⟨hc, hn⟩
    refine ⟨hc, ?_⟩
    rintro n ⟨s, hs, hmem⟩
    exact hn s hs n hmem

theorem sound_search_iff : (search (some m)).Sound ↔ m.Sound := by
  simp [Sound, nodes, isSupported, passesCheck, check?, bestEstimator, Except.map]

theorem not_sound_search_none : ¬ (search none).Sound := by
  simp [Sound, nodes, passesCheck, check?, bestEstimator, Except.map]

theorem sound_polynomial_iff {features : PolynomialFeatures} :
    (polynomial features).Sound ↔ features.check = .ok () := by
  simp only [Sound, nodes, List.mem_singleton, forall_eq, isSupported, passesCheck, check?,
    true_and]
  cases features.check <;> simp

theorem sound_scaler_iff {s : StandardScaler} : (scaler s).Sound ↔ s.check = .ok () := by
  simp only [Sound, nodes, List.mem_singleton, forall_eq, isSupported, passesCheck, check?,
    true_and]
  cases s.check <;> simp

theorem sound_linear (l : LinearModel) : (linear l).Sound := by
  simp [Sound, nodes, isSupported, passesCheck, check?]

theorem not_sound_unsupported (estimator : String) : ¬ (unsupported estimator).Sound := by
  simp [Sound, nodes, isSupported]

/-! ## The list of functions -/

mutual

/-- The names that the functions of a model have, in the order of their definitions. -/
def derivedNames : Model → String → List String
  | .pipeline steps, name => derivedStepNames name steps ++ [name]
  | .search none, _ => []
  | .search (some m), name => m.derivedNames name
  | .polynomial _, name => [name]
  | .scaler _, name => [name]
  | .linear _, name => [name]
  | .unsupported _, name => [name]

def derivedStepNames (name : String) : List Step → List String
  | [] => []
  | ⟨step, m⟩ :: rest => m.derivedNames (Name.ofStep name step) ++ derivedStepNames name rest

end

def leafDefinition (name : String) : Except DataError Body → List Function
  | .ok body => [⟨name, body⟩]
  | .error _ => []

mutual

/-- The functions of a model. A pipeline calls its steps under the names that they have there. -/
def definitions : Model → String → List Function
  | .pipeline steps, name =>
    stepDefinitions name steps ++ [⟨name, .chain (steps.map fun s => Name.ofStep name s.name)⟩]
  | .search none, _ => []
  | .search (some m), name => m.definitions name
  | .polynomial p, name => leafDefinition name p.body
  | .scaler s, name => leafDefinition name s.body
  | .linear l, name => leafDefinition name (.ok l.body)
  | .unsupported _, _ => []

def stepDefinitions (name : String) : List Step → List Function
  | [] => []
  | ⟨step, m⟩ :: rest => m.definitions (Name.ofStep name step) ++ stepDefinitions name rest

end

theorem derivedStepNames_eq (name : String) (steps : List Step) :
    derivedStepNames name steps =
      steps.flatMap fun s => s.estimator.derivedNames (Name.ofStep name s.name) := by
  induction steps with
  | nil => rfl
  | cons s rest ih =>
    obtain ⟨step, m⟩ := s
    rw [derivedStepNames, List.flatMap_cons, ih]

/-- The programs of the steps, one for each. -/
def stepPrograms (name : String) (steps : List Step) : List Program :=
  steps.map fun s => ⟨s.estimator.definitions (Name.ofStep name s.name)⟩

theorem flatMap_functions_stepPrograms (name : String) (steps : List Step) :
    (stepPrograms name steps).flatMap Program.functions = stepDefinitions name steps := by
  induction steps with
  | nil => rfl
  | cons s rest ih =>
    obtain ⟨step, m⟩ := s
    rw [stepDefinitions, ← ih]
    rfl

end Model

theorem PolynomialFeatures.body_eq_ok_iff {p : PolynomialFeatures} {b : Body} :
    p.body = .ok b ↔ p.check = .ok () ∧ b = .vector (p.powers.map monomial) := by
  unfold body
  cases p.check with
  | error e => simp
  | ok => simp [eq_comm]

theorem StandardScaler.body_eq_ok_iff {s : StandardScaler} {b : Body} :
    s.body = .ok b ↔ s.check = .ok () ∧ b = .vector (elementsFrom 0 s.mean s.scale) := by
  unfold body
  cases s.check with
  | error e => simp
  | ok => simp [eq_comm]

namespace Model

variable {m : Model} {name : String} {p : Program} {steps : List Step}

mutual

theorem map_name_definitions : ∀ {m : Model} (name : String), m.Sound →
    (m.definitions name).map Function.name = m.derivedNames name
  | .pipeline steps, name, h => by
    have hsteps := map_name_stepDefinitions name (sound_pipeline_iff.mp h).2
    rw [definitions, List.map_append, hsteps]
    rfl
  | .search none, _, h => absurd h not_sound_search_none
  | .search (some m), name, h => by
    rw [definitions, derivedNames]
    exact map_name_definitions (m := m) name (sound_search_iff.mp h)
  | .polynomial p, name, h => by
    rw [definitions, PolynomialFeatures.body_eq_ok_iff.mpr ⟨sound_polynomial_iff.mp h, rfl⟩]
    rfl
  | .scaler s, name, h => by
    rw [definitions, StandardScaler.body_eq_ok_iff.mpr ⟨sound_scaler_iff.mp h, rfl⟩]
    rfl
  | .linear l, name, _ => rfl
  | .unsupported e, _, h => absurd h (not_sound_unsupported e)

theorem map_name_stepDefinitions : ∀ {steps : List Step} (name : String),
    (∀ s ∈ steps, s.estimator.Sound) →
      (stepDefinitions name steps).map Function.name = derivedStepNames name steps
  | [], _, _ => rfl
  | ⟨step, m⟩ :: rest, name, h => by
    have hm := map_name_definitions (Name.ofStep name step) (h ⟨step, m⟩ List.mem_cons_self)
    have hrest := map_name_stepDefinitions name fun s hs => h s (List.mem_cons_of_mem _ hs)
    rw [stepDefinitions, derivedStepNames, List.map_append, hm, hrest]

end

theorem flatMap_names_stepPrograms (name : String) (h : ∀ s ∈ steps, s.estimator.Sound) :
    (stepPrograms name steps).flatMap Program.names = derivedStepNames name steps := by
  rw [← map_name_stepDefinitions name h, ← flatMap_functions_stepPrograms, List.map_flatMap]
  rfl

/-- The function that was asked for is defined last. -/
theorem getLast?_derivedNames : ∀ {m : Model} (name : String), m.Sound →
    (m.derivedNames name).getLast? = some name
  | .pipeline steps, name, _ => by rw [derivedNames, List.getLast?_concat]
  | .search none, _, h => absurd h not_sound_search_none
  | .search (some m), name, h => getLast?_derivedNames (m := m) name (sound_search_iff.mp h)
  | .polynomial _, _, _ => rfl
  | .scaler _, _, _ => rfl
  | .linear _, _, _ => rfl
  | .unsupported _, _, _ => rfl

/-! ## Compilation -/

variable {reporting : Reporting}

theorem named_eq_ok_iff {x : Except BuildError Program} :
    named name x = .ok p ↔ Name.isIdentifier name = true ∧ x = .ok p := by
  unfold named
  split <;> simp_all

theorem leaf_eq_ok_iff {body : Except DataError Body} :
    leaf name body = .ok p ↔ (∃ b, body = .ok b) ∧ p = ⟨leafDefinition name body⟩ := by
  cases body with
  | error e => simp [leaf]
  | ok b => simp [leaf, leafDefinition, eq_comm]

theorem leaf_wellDefined {body : Except DataError Body} (h : leaf name body = .ok p)
    (hc : ∀ b, body = .ok b → b.callees = []) : p.WellDefined := by
  obtain ⟨⟨b, rfl⟩, rfl⟩ := leaf_eq_ok_iff.mp h
  refine (Program.wellDefined_concat_iff [] ⟨name, b⟩).mpr ⟨Program.wellDefined_empty, by simp, ?_⟩
  rw [hc b rfl]
  simp

theorem chain_wellDefined {names : List String} {ps : List Program}
    (h : chain name names ps = .ok p) : p.WellDefined := by
  obtain ⟨merged, hm, h⟩ := bind_eq_ok_iff.mp h
  have hmerged := Program.foldlM_append_wellDefined Program.wellDefined_empty hm
  exact Program.push_wellDefined hmerged (Program.accepted_eq_ok_iff.mp h)

/-- The steps in one program: nothing is defined twice, and the pipeline's own name is new. -/
theorem chain_eq_ok_iff {names : List String} {ps : List Program}
    (hps : ∀ q ∈ ps, q.WellDefined)
    (hnames : ∀ s ∈ names, Name.ofStep name s ∈ ps.flatMap Program.names) :
    chain name names ps = .ok p ↔
      (ps.flatMap Program.names ++ [name]).Nodup ∧
        p = ⟨ps.flatMap Program.functions ++ [⟨name, .chain (names.map (Name.ofStep name))⟩]⟩ := by
  have hflat := Program.names_flatMap ps
  have hmerge (r : Program) :=
    Program.foldlM_append_eq_ok_iff (r := r) Program.wellDefined_empty.distinct hps
  simp only [Program.names_empty, List.nil_append] at hmerge
  have hnew (hnd : (ps.flatMap Program.names).Nodup) :
      (ps.flatMap Program.names ++ [name]).Nodup ↔ name ∉ ps.flatMap Program.names := by
    rw [List.nodup_append_comm, List.singleton_append, List.nodup_cons, and_iff_left hnd]
  have hcallees : ∀ c ∈ names.map (Name.ofStep name), c ∈ ps.flatMap Program.names := by
    intro c hc
    obtain ⟨s, hs, rfl⟩ := List.mem_map.mp hc
    exact hnames s hs
  unfold chain
  rw [bind_eq_ok_iff]
  constructor
  · rintro ⟨merged, hm, h⟩
    obtain ⟨hnd, rfl⟩ := (hmerge merged).mp hm
    obtain ⟨hn, -, rfl⟩ := Program.push_eq_none_iff.mp (Program.accepted_eq_ok_iff.mp h)
    exact ⟨(hnew hnd).mpr (hflat ▸ hn), rfl⟩
  · rintro ⟨hnd, rfl⟩
    have hnd' := (List.nodup_append.mp hnd).1
    refine ⟨_, (hmerge _).mpr ⟨hnd', rfl⟩, Program.accepted_eq_ok_iff.mpr ?_⟩
    refine Program.push_eq_none_iff.mpr ⟨?_, ?_, rfl⟩
    · exact hflat ▸ (hnew hnd').mp hnd
    · exact hflat ▸ hcallees

theorem mapError_eq_ok_iff {ε δ α : Type} {x : Except ε α} {f : ε → δ} {a : α} :
    x.mapError f = .ok a ↔ x = .ok a := by
  cases x <;> simp [Except.mapError]

theorem compileWith_wellDefined : ∀ {m : Model} {reporting : Reporting} {name : String}
    {p : Program}, m.compileWith reporting name = .ok p → p.WellDefined
  | .pipeline steps, _, name, p, h => by
    rw [compileWith, named_eq_ok_iff] at h
    obtain ⟨-, h⟩ := h
    split at h
    · cases h
    · obtain ⟨ps, -, h⟩ := bind_eq_ok_iff.mp h
      exact chain_wellDefined (mapError_eq_ok_iff.mp h)
  | .search none, _, name, p, h => by
    rw [compileWith, named_eq_ok_iff] at h
    cases h.2
  | .search (some m), _, name, p, h => by
    rw [compileWith, named_eq_ok_iff] at h
    exact compileWith_wellDefined h.2
  | .polynomial features, _, name, p, h => by
    rw [compileWith, named_eq_ok_iff] at h
    refine leaf_wellDefined h.2 fun b hb => ?_
    rw [(PolynomialFeatures.body_eq_ok_iff.mp hb).2]
    rfl
  | .scaler s, _, name, p, h => by
    rw [compileWith, named_eq_ok_iff] at h
    refine leaf_wellDefined h.2 fun b hb => ?_
    rw [(StandardScaler.body_eq_ok_iff.mp hb).2]
    rfl
  | .linear l, _, name, p, h => by
    rw [compileWith, named_eq_ok_iff] at h
    refine leaf_wellDefined h.2 fun b hb => ?_
    cases hb
    rfl
  | .unsupported e, _, name, p, h => by
    rw [compileWith, named_eq_ok_iff] at h
    cases h.2

theorem exists_of_mem_stepResults {i : Nat} {x : Except BuildError Program}
    (h : x ∈ stepResults reporting name i steps) :
    ∃ s ∈ steps, ∃ j,
      s.estimator.compileWith (reporting.inStep j) (Name.ofStep name s.name) = x := by
  induction steps generalizing i with
  | nil => cases h
  | cons s rest ih =>
    obtain ⟨step, m⟩ := s
    rw [stepResults] at h
    rcases List.mem_cons.mp h with rfl | h
    · exact ⟨⟨step, m⟩, List.mem_cons_self, i, rfl⟩
    · obtain ⟨s, hs, hx⟩ := ih h
      exact ⟨s, List.mem_cons_of_mem _ hs, hx⟩

theorem stepResults_wellDefined {ps : List Program} {i : Nat}
    (h : stepResults reporting name i steps = ps.map .ok) : ∀ q ∈ ps, q.WellDefined := by
  intro q hq
  have hmem : .ok q ∈ stepResults reporting name i steps := by
    rw [h]
    exact List.mem_map_of_mem hq
  obtain ⟨s, -, j, hs⟩ := exists_of_mem_stepResults hmem
  exact compileWith_wellDefined hs

theorem chain_stepPrograms_eq_ok_iff {i : Nat} (hsound : ∀ s ∈ steps, s.estimator.Sound)
    (hps : stepResults reporting name i steps = (stepPrograms name steps).map .ok) :
    chain name (steps.map Step.name) (stepPrograms name steps) = .ok p ↔
      ((pipeline steps).derivedNames name).Nodup ∧ p = ⟨(pipeline steps).definitions name⟩ := by
  have hnames := flatMap_names_stepPrograms name hsound
  have hcallees : ∀ s ∈ steps.map Step.name,
      Name.ofStep name s ∈ (stepPrograms name steps).flatMap Program.names := by
    intro step hstep
    obtain ⟨s, hs, rfl⟩ := List.mem_map.mp hstep
    rw [hnames, derivedStepNames_eq]
    have hlast := getLast?_derivedNames (Name.ofStep name s.name) (hsound s hs)
    exact List.mem_flatMap.mpr ⟨s, hs, List.mem_of_getLast? hlast⟩
  rw [chain_eq_ok_iff (stepResults_wellDefined hps) hcallees, hnames,
    flatMap_functions_stepPrograms, derivedNames, definitions, List.map_map]
  rfl

mutual

theorem compileWith_eq_ok_iff : ∀ (m : Model) (reporting : Reporting) (name : String)
    (p : Program), m.compileWith reporting name = .ok p ↔
      Name.isIdentifier name = true ∧ m.Sound ∧ (m.derivedNames name).Nodup ∧
        p = ⟨m.definitions name⟩
  | .pipeline steps, reporting, name, p => by
    rw [compileWith, named_eq_ok_iff, sound_pipeline_iff]
    refine and_congr_right fun hname => ?_
    split
    · rename_i e he
      simp [he]
    · rename_i hcheck
      have hresults := stepResults_eq_iff reporting steps 0 hname (isStepName_of_checkSteps hcheck)
      simp only [bind_eq_ok_iff, Reporting.collect_eq_ok_iff]
      constructor
      · rintro ⟨ps, hps, h⟩
        obtain ⟨hsound, -, rfl⟩ := (hresults ps).mp hps
        have := (chain_stepPrograms_eq_ok_iff hsound hps).mp (mapError_eq_ok_iff.mp h)
        exact ⟨⟨hcheck, hsound⟩, this⟩
      · rintro ⟨⟨-, hsound⟩, hnd, hp⟩
        have hstep : ∀ s ∈ steps, (s.estimator.derivedNames (Name.ofStep name s.name)).Nodup := by
          rw [derivedNames, derivedStepNames_eq] at hnd
          exact (List.nodup_flatMap.mp (List.nodup_append.mp hnd).1).1
        have hps := (hresults _).mpr ⟨hsound, hstep, rfl⟩
        have hchain := (chain_stepPrograms_eq_ok_iff hsound hps).mpr ⟨hnd, hp⟩
        exact ⟨_, hps, mapError_eq_ok_iff.mpr hchain⟩
  | .search none, _, name, p => by
    rw [compileWith, named_eq_ok_iff]
    simp [not_sound_search_none]
  | .search (some m), reporting, name, p => by
    rw [compileWith, named_eq_ok_iff, sound_search_iff, compileWith_eq_ok_iff m reporting name p]
    exact and_self_left
  | .polynomial features, _, name, p => by
    rw [compileWith, named_eq_ok_iff, leaf_eq_ok_iff, sound_polynomial_iff]
    simp [PolynomialFeatures.body_eq_ok_iff, derivedNames, definitions]
  | .scaler s, _, name, p => by
    rw [compileWith, named_eq_ok_iff, leaf_eq_ok_iff, sound_scaler_iff]
    simp [StandardScaler.body_eq_ok_iff, derivedNames, definitions]
  | .linear l, _, name, p => by
    rw [compileWith, named_eq_ok_iff, leaf_eq_ok_iff]
    simp [sound_linear, derivedNames, definitions]
  | .unsupported e, _, name, p => by
    rw [compileWith, named_eq_ok_iff]
    simp [not_sound_unsupported]

theorem stepResults_eq_iff (reporting : Reporting) : ∀ (steps : List Step) (i : Nat)
    {name : String}, Name.isIdentifier name = true →
    (∀ s ∈ steps, Name.isStepName s.name = true) →
    ∀ ps : List Program, stepResults reporting name i steps = ps.map .ok ↔
      (∀ s ∈ steps, s.estimator.Sound) ∧
        (∀ s ∈ steps, (s.estimator.derivedNames (Name.ofStep name s.name)).Nodup) ∧
          ps = stepPrograms name steps
  | [], i, name, _, _, ps => by simp [stepResults, stepPrograms, eq_comm]
  | ⟨step, m⟩ :: rest, i, name, hname, hsteps, ps => by
    have hident : Name.isIdentifier (Name.ofStep name step) = true :=
      Name.isIdentifier_ofStep hname (hsteps ⟨step, m⟩ List.mem_cons_self)
    have hrest := stepResults_eq_iff reporting rest (i + 1) hname fun s hs =>
      hsteps s (List.mem_cons_of_mem _ hs)
    rw [stepResults, eq_comm, List.map_eq_cons_iff]
    simp only [eq_comm (a := Except.ok _), eq_comm (a := List.map _ _), compileWith_eq_ok_iff m,
      hrest, hident, true_and, List.forall_mem_cons]
    constructor
    · rintro ⟨q, qs, rfl, ⟨hm, hnd, rfl⟩, hsound, hnds, rfl⟩
      exact ⟨⟨hm, hsound⟩, ⟨hnd, hnds⟩, rfl⟩
    · rintro ⟨⟨hm, hsound⟩, ⟨hnd, hnds⟩, rfl⟩
      exact ⟨_, _, rfl, ⟨hm, hnd, rfl⟩, hsound, hnds, rfl⟩

end

theorem compileWith_eq_ok_of_eq_ok (h : m.compileWith reporting name = .ok p) (other : Reporting) :
    m.compileWith other name = .ok p :=
  (compileWith_eq_ok_iff m other name p).mpr ((compileWith_eq_ok_iff m reporting name p).mp h)

theorem exists_entry_of_compileWith (h : m.compileWith reporting name = .ok p) :
    ∃ f, p.entry? = some f ∧ f.name = name := by
  obtain ⟨-, hsound, -, rfl⟩ := (compileWith_eq_ok_iff m reporting name p).mp h
  have hlast := getLast?_derivedNames name hsound
  rwa [← map_name_definitions name hsound, List.getLast?_map, Option.map_eq_some_iff] at hlast

/-- Compilation succeeds exactly under a usable name, for a tree whose nodes all pass, and without
a name derived twice. What it then gives is the list of functions above, its last one under the name
that was asked for. -/
theorem compile_succeeds_iff_and_emits (reporting : Reporting) (m : Model) (name : String) :
    ((∃ p, m.compileWith reporting name = .ok p) ↔
      Name.isIdentifier name = true ∧ m.Sound ∧ (m.derivedNames name).Nodup) ∧
    ∀ p, m.compileWith reporting name = .ok p →
      p.functions = m.definitions name ∧ p.names = m.derivedNames name ∧
        p.entry?.map Function.name = some name := by
  have hcompile := compileWith_eq_ok_iff m reporting name
  constructor
  · constructor
    · rintro ⟨p, h⟩
      obtain ⟨hname, hsound, hnd, -⟩ := (hcompile p).mp h
      exact ⟨hname, hsound, hnd⟩
    · rintro ⟨hname, hsound, hnd⟩
      exact ⟨_, (hcompile _).mpr ⟨hname, hsound, hnd, rfl⟩⟩
  · intro p h
    obtain ⟨-, hsound, -, rfl⟩ := (hcompile p).mp h
    have hnames := map_name_definitions name hsound
    refine ⟨rfl, hnames, ?_⟩
    rw [Program.entry?, ← List.getLast?_map, hnames, getLast?_derivedNames name hsound]

end Model

end RegressionScript
