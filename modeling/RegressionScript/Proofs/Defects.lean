import RegressionScript.Proofs.Renaming

/-!
# What an error of compilation says

Every error is about a node of the tree or about the name that was asked for, whichever of several
failing steps is reported. Step names are checked before any step is compiled, so no derived name is
refused, and a pipeline calls only functions that its steps have just defined, so no call is found
undefined.
-/

namespace RegressionScript

set_option autoImplicit false

/-! ## Errors of merging -/

namespace Program

variable {p q : Program} {f : Function} {e : DefinitionError}

theorem redefined_of_push (h : accepted (p.push f) = .error e)
    (hcallees : ∀ c ∈ f.body.callees, c ∈ p.names) : e = .redefined f.name ∧ f.name ∈ p.names := by
  by_cases hf : f.name ∈ p.names
  · rw [push_of_mem hf] at h
    exact ⟨(Except.error.inj h).symm, hf⟩
  · rw [push_eq_none_iff.mpr ⟨hf, hcallees, rfl⟩] at h
    cases h

theorem redefined_of_append (hq : q.WellDefined) (h : p.append q = .error e) :
    ∃ d, e = .redefined d ∧ d ∈ p.names ∧ d ∈ q.names := by
  rw [append, extend_eq p hq] at h
  cases hfind : q.functions.find? fun f => p.defines f.name with
  | none =>
    rw [hfind] at h
    cases h
  | some f =>
    rw [hfind] at h
    have hdef := List.find?_some hfind
    exact ⟨f.name, (Except.error.inj h).symm, defines_iff.mp hdef,
      List.mem_map_of_mem (List.mem_of_find?_eq_some hfind)⟩

theorem two_le_count_append {xs ys : List String} {d : String} (hx : d ∈ xs) (hy : d ∈ ys) :
    2 ≤ (xs ++ ys).count d := by
  have hxs := List.count_pos_iff.mpr hx
  have hys := List.count_pos_iff.mpr hy
  rw [List.count_append]
  omega

-- `p` is what has been merged so far, and its names stay distinct along the way.
theorem redefined_of_foldlM_append {ps : List Program} (hp : p.names.Nodup)
    (hps : ∀ q ∈ ps, q.WellDefined) (h : ps.foldlM append p = .error e) :
    ∃ d, e = .redefined d ∧ 2 ≤ (p.names ++ ps.flatMap names).count d := by
  induction ps generalizing p with
  | nil => cases h
  | cons q ps ih =>
    rw [List.forall_mem_cons] at hps
    rw [List.foldlM_cons] at h
    rw [List.flatMap_cons, ← List.append_assoc]
    rcases bind_eq_error_iff.mp h with h | ⟨r, hr, h⟩
    · obtain ⟨d, rfl, hdp, hdq⟩ := redefined_of_append hps.1 h
      have hcount := two_le_count_append hdp hdq
      refine ⟨d, rfl, ?_⟩
      rw [List.count_append]
      omega
    · obtain ⟨hnd, rfl⟩ := (append_eq_ok_iff hp hps.1).mp hr
      have hnames := names_append p q
      obtain ⟨d, rfl, hcount⟩ := ih (hnames ▸ hnd) hps.2 h
      exact ⟨d, rfl, hnames ▸ hcount⟩

end Program

namespace Model

variable {m n : Model} {reporting : Reporting} {name a : String} {steps : List Step}

theorem redefined_of_chain {names : List String} {ps : List Program} {e : DefinitionError}
    (hps : ∀ q ∈ ps, q.WellDefined)
    (hnames : ∀ s ∈ names, Name.ofStep name s ∈ ps.flatMap Program.names)
    (h : chain name names ps = .error e) :
    ∃ d, e = .redefined d ∧ 2 ≤ (ps.flatMap Program.names ++ [name]).count d := by
  rcases bind_eq_error_iff.mp h with h | ⟨merged, hm, h⟩
  · obtain ⟨d, rfl, hcount⟩ :=
      Program.redefined_of_foldlM_append Program.wellDefined_empty.distinct hps h
    rw [Program.names_empty, List.nil_append] at hcount
    refine ⟨d, rfl, ?_⟩
    rw [List.count_append]
    omega
  · -- all steps are merged, so that only the name of the pipeline itself can be there already
    obtain ⟨-, rfl⟩ :=
      (Program.foldlM_append_eq_ok_iff Program.wellDefined_empty.distinct hps).mp hm
    rw [Program.empty, List.nil_append] at h
    have hcallees : ∀ c ∈ names.map (Name.ofStep name),
        c ∈ (Program.mk (ps.flatMap Program.functions)).names := by
      rw [Program.names_flatMap]
      exact List.forall_mem_map.mpr hnames
    obtain ⟨rfl, hmem⟩ := Program.redefined_of_push h hcallees
    rw [Program.names_flatMap] at hmem
    exact ⟨name, rfl, Program.two_le_count_append hmem (List.mem_singleton_self name)⟩

/-! ## Defects of a tree -/

/-- The node `n` has the name `a` where the tree `m` has the name `name`. -/
inductive Located : Model → String → Model → String → Prop where
  | root (m : Model) (name : String) : Located m name m name
  | step {steps : List Step} {s : Step} {name : String} {n : Model} {a : String} : s ∈ steps →
    Located s.estimator (Name.ofStep name s.name) n a → Located (.pipeline steps) name n a
  | best {m : Model} {name : String} {n : Model} {a : String} :
    Located m name n a → Located (.search (some m)) name n a

/-- What each error says of the tree and of its name. -/
def Defect (m : Model) (name : String) : BuildError → Prop
  | .functionName a => a = name ∧ Name.isIdentifier name = false
  | .unsupported kind => .unsupported kind ∈ m.nodes
  | .malformed error => ∃ n ∈ m.nodes, n.check? = some (.error error)
  | .definition (.redefined d) =>
    ∃ steps a, Located m name (.pipeline steps) a ∧ 2 ≤ ((pipeline steps).derivedNames a).count d
  | .definition (.callsUndefined _ _) => False
  | .settings _ => False

/-- A defect of a part is one of the whole, unless it is the name of the part. -/
theorem Defect.lift {e : BuildError} (h : n.Defect a e) (hnodes : n.nodes ⊆ m.nodes)
    (hlocated : ∀ k b, Located n a k b → Located m name k b)
    (hname : Name.isIdentifier a = false → a = name) : m.Defect name e := by
  cases e with
  | functionName b =>
    obtain ⟨rfl, hb⟩ := h
    exact hname hb ▸ ⟨rfl, hb⟩
  | unsupported kind => exact hnodes h
  | malformed error =>
    obtain ⟨k, hk, hcheck⟩ := h
    exact ⟨k, hnodes hk, hcheck⟩
  | settings error => exact h
  | definition error =>
    cases error with
    | callsUndefined caller callee => exact h
    | redefined d =>
      obtain ⟨steps, b, hloc, hcount⟩ := h
      exact ⟨steps, b, hlocated _ _ hloc, hcount⟩

theorem Defect.step {e : BuildError} {s : Step} (hs : s ∈ steps)
    (hident : Name.isIdentifier (Name.ofStep name s.name) = true)
    (h : s.estimator.Defect (Name.ofStep name s.name) e) : (pipeline steps).Defect name e := by
  apply h.lift
  · intro n hn
    exact List.mem_cons_of_mem _ (mem_stepNodes_iff.mpr ⟨s, hs, hn⟩)
  · intro k b hloc
    exact .step hs hloc
  · intro hfalse
    rw [hident] at hfalse
    cases hfalse

theorem Defect.best {e : BuildError} (h : m.Defect name e) : (search (some m)).Defect name e :=
  h.lift (List.subset_cons_self _ _) (fun _ _ hloc => .best hloc) fun _ => rfl

/-! ## Compilation -/

theorem mem_nodes_self (m : Model) : m ∈ m.nodes := by
  cases m with
  | pipeline steps => exact List.mem_cons_self
  | search best => cases best <;> exact List.mem_cons_self
  | polynomial features => exact List.mem_cons_self
  | scaler s => exact List.mem_cons_self
  | linear l => exact List.mem_cons_self
  | unsupported estimator => exact List.mem_cons_self

theorem defect_of_named {x : Except BuildError Program} {e : BuildError}
    (h : named name x = .error e)
    (hx : Name.isIdentifier name = true → x = .error e → m.Defect name e) : m.Defect name e := by
  unfold named at h
  split at h
  · rename_i hident
    exact hx hident h
  · rename_i hident
    cases h
    exact ⟨rfl, Bool.eq_false_iff.mpr hident⟩

theorem defect_of_leaf {body : Except DataError Body} {e : BuildError}
    (hbody : ∀ d, body = .error d → m.check? = some (.error d)) (h : leaf name body = .error e) :
    m.Defect name e := by
  cases body with
  | ok b => cases h
  | error d =>
    cases h
    exact ⟨m, mem_nodes_self m, hbody d rfl⟩

theorem defect_of_chain {ps : List Program} {e : BuildError}
    (hident : Name.isIdentifier name = true) (hcheck : checkSteps steps = .ok ())
    (hps : stepResults reporting name 0 steps = ps.map .ok)
    (h : (chain name (steps.map Step.name) ps).mapError .definition = .error e) :
    (pipeline steps).Defect name e := by
  obtain ⟨hsound, -, rfl⟩ :=
    (stepResults_eq_iff reporting steps 0 hident (isStepName_of_checkSteps hcheck) ps).mp hps
  cases hchain : chain name (steps.map Step.name) (stepPrograms name steps) with
  | ok p =>
    rw [hchain] at h
    cases h
  | error d =>
    rw [hchain] at h
    cases h
    have hnames : ∀ s ∈ steps.map Step.name,
        Name.ofStep name s ∈ (stepPrograms name steps).flatMap Program.names :=
      List.forall_mem_map.mpr (ofStep_mem_of_stepResults hps)
    obtain ⟨d, rfl, hcount⟩ := redefined_of_chain (stepResults_wellDefined hps) hnames hchain
    rw [flatMap_names_stepPrograms name hsound] at hcount
    exact ⟨steps, name, .root _ _, hcount⟩

mutual

theorem defect_of_compileWith : ∀ {m : Model} {reporting : Reporting} {name : String}
    {e : BuildError}, m.compileWith reporting name = .error e → m.Defect name e
  | .pipeline steps, reporting, name, e, h => by
    rw [compileWith] at h
    apply defect_of_named h
    intro hident h
    cases hcheck : checkSteps steps with
    | error d =>
      simp only [hcheck] at h
      cases h
      exact ⟨.pipeline steps, mem_nodes_self _, congrArg some hcheck⟩
    | ok u =>
      simp only [hcheck] at h
      rcases bind_eq_error_iff.mp h with h | ⟨ps, hps, h⟩
      · obtain ⟨s, hs, hdefect⟩ := defect_of_stepResults (Reporting.mem_of_collect_eq_error h)
        -- the check of the steps has passed, so that the defect is not the name of the step
        have hstep := isStepName_of_checkSteps hcheck s hs
        exact hdefect.step hs (Name.isIdentifier_ofStep hident hstep)
      · exact defect_of_chain hident hcheck (Reporting.collect_eq_ok_iff.mp hps) h
  | .search none, _, name, e, h => by
    rw [compileWith] at h
    apply defect_of_named h
    intro _ h
    cases h
    exact ⟨.search none, mem_nodes_self _, rfl⟩
  | .search (some m), _, name, e, h => by
    rw [compileWith] at h
    apply defect_of_named h
    intro _ h
    exact (defect_of_compileWith h).best
  | .polynomial features, _, name, e, h => by
    rw [compileWith] at h
    apply defect_of_named h
    intro _ h
    apply defect_of_leaf _ h
    intro d hd
    exact congrArg some (error_of_bind_ok hd)
  | .scaler s, _, name, e, h => by
    rw [compileWith] at h
    apply defect_of_named h
    intro _ h
    apply defect_of_leaf _ h
    intro d hd
    exact congrArg some (error_of_bind_ok hd)
  | .linear l, _, name, e, h => by
    rw [compileWith] at h
    apply defect_of_named h
    intro _ h
    cases h
  | .unsupported estimator, _, name, e, h => by
    rw [compileWith] at h
    apply defect_of_named h
    intro _ h
    cases h
    exact mem_nodes_self _

theorem defect_of_stepResults : ∀ {steps : List Step} {reporting : Reporting} {name : String}
    {i : Nat} {e : BuildError}, .error e ∈ stepResults reporting name i steps →
      ∃ s ∈ steps, s.estimator.Defect (Name.ofStep name s.name) e
  | [], _, name, i, e, h => by cases h
  | ⟨step, m⟩ :: rest, _, name, i, e, h => by
    rw [stepResults] at h
    rcases List.mem_cons.mp h with h | h
    · exact ⟨⟨step, m⟩, List.mem_cons_self, defect_of_compileWith h.symm⟩
    · obtain ⟨s, hs, hdefect⟩ := defect_of_stepResults h
      exact ⟨s, List.mem_cons_of_mem _ hs, hdefect⟩

end

/-- Whatever is reported, an error names a defect that is there. The name that was asked for is
refused only if it is no identifier, and derived names never are; an unsupported kind and the error
of a check belong to a node of the tree; a name defined twice is derived twice inside one pipeline.
No other error comes up. -/
theorem compile_error_names_defect {m : Model} {reporting : Reporting} {name : String}
    {e : BuildError} (h : m.compileWith reporting name = .error e) :
    (∀ a, e = .functionName a → a = name ∧ Name.isIdentifier name = false) ∧
    (∀ kind, e = .unsupported kind → .unsupported kind ∈ m.nodes) ∧
    (∀ d, e = .malformed d → ∃ n ∈ m.nodes, n.check? = some (.error d)) ∧
    (∀ d, e = .definition (.redefined d) → ∃ steps a, Located m name (.pipeline steps) a ∧
      2 ≤ ((pipeline steps).derivedNames a).count d) ∧
    (∀ caller callee, e ≠ .definition (.callsUndefined caller callee)) ∧
    ∀ d, e ≠ .settings d := by
  have hdefect := defect_of_compileWith h
  refine ⟨?_, ?_, ?_, ?_, ?_, ?_⟩
  · rintro a rfl
    exact hdefect
  · rintro kind rfl
    exact hdefect
  · rintro d rfl
    exact hdefect
  · rintro d rfl
    exact hdefect
  · rintro caller callee rfl
    exact hdefect
  · rintro d rfl
    exact hdefect

end Model

/-- The last failing step is reported. -/
def Reporting.last : Reporting where
  pick _ failing := failing.getLastD 0
  pick_mem := by
    intro _ failing h
    rw [List.getLastD_eq_getLast?, List.getLast?_eq_some_getLast h]
    exact List.getLast_mem h

namespace Model

/-- Both steps fail. The second is the one reported, and the two names that meet stand in a pipeline
below the root. -/
theorem compile_error_in_inner_pipeline :
    (pipeline [⟨"w", .unsupported "Ridge"⟩, ⟨"x", followedBy "a_b"⟩]).compileWith .last "g" =
      .error (.definition (.redefined "g_x_a_b")) ∧
    ∃ steps a, Located (pipeline [⟨"w", .unsupported "Ridge"⟩, ⟨"x", followedBy "a_b"⟩]) "g"
        (.pipeline steps) a ∧
      2 ≤ ((pipeline steps).derivedNames a).count "g_x_a_b" := by
  have herror : (pipeline [⟨"w", .unsupported "Ridge"⟩, ⟨"x", followedBy "a_b"⟩]).compileWith
      .last "g" = .error (.definition (.redefined "g_x_a_b")) := rfl
  obtain ⟨-, -, -, hredefined, -⟩ := compile_error_names_defect herror
  exact ⟨herror, hredefined "g_x_a_b" rfl⟩

end Model

end RegressionScript
