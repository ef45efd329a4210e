import RegressionScript.Proofs.DefinitionText
import RegressionScript.Proofs.Emission

/-!
# Generated code read back

The text of a compiled program is read as the functions of that program, in order, with the same
callees and with expressions of the same values.
-/

namespace RegressionScript

set_option autoImplicit false

/-! ## Leaves -/

theorem PolynomialFeatures.readsAsFactor_of_mem {column : Nat} {row : List UInt32} {places : Nat} :
    ∀ e ∈ factorsFrom column row, e.ReadsAsFactor places := by
  induction row generalizing column with
  | nil =>
    intro e he
    cases he
  | cons power row ih =>
    rw [factorsFrom]
    split
    · exact ih
    · split
      · rw [List.forall_mem_cons]
        exact ⟨Expr.readsAsFactor_input places column.toUInt32, ih⟩
      · rw [List.forall_mem_cons]
        exact ⟨(Expr.readsAsFactor_input places column.toUInt32).pow power, ih⟩

theorem Expr.readsBack_one (places : Nat) : (int 1).ReadsBack places := by
  have htext : Function.exprText places (int 1) = ['1'] := by
    have hwidth : Digits.width 10 1 = 1 := by simp [Digits.width]
    have hone : (1 : Int64).toInt.natAbs = 1 := by decide
    rw [Function.exprText, text, Digits.ofInt, if_neg (by decide), hone, Digits.ofNat, hwidth]
    rfl
  have hread : Sqf.IsFactor (Sqf.lex ['1']) (.number false ⟨1, 0⟩) := fun _ _ _ => rfl
  refine ⟨.number false ⟨1, 0⟩, ?_, fun quotient x => ?_⟩
  · rw [htext]
    exact hread.isTerm.isSum
  · simp [Sqf.Formula.value, exact, Literal.sign, Decimal.toRat]

theorem PolynomialFeatures.readsBack_monomial (row : List UInt32) (places : Nat) :
    (monomial row).ReadsBack places := by
  have hfactors := @readsAsFactor_of_mem 0 row places
  unfold monomial
  split
  · exact Expr.readsBack_one places
  · rename_i hne
    exact Expr.readsBack_product hne hfactors

theorem StandardScaler.readsBack_of_mem {column : Nat} {means scales : List Float} {places : Nat}
    (hmeans : ∀ v ∈ means, (Binary64.ofFloat v).isFinite = true)
    (hscales : ∀ v ∈ scales, (Binary64.ofFloat v).isFinite = true) :
    ∀ e ∈ elementsFrom column means scales, e.ReadsBack places := by
  induction means generalizing column scales with
  | nil =>
    intro e he
    cases he
  | cons mean means ih =>
    cases scales with
    | nil =>
      intro e he
      cases he
    | cons scale scales =>
      rw [List.forall_mem_cons] at hmeans hscales
      rw [elementsFrom, List.forall_mem_cons]
      exact ⟨Expr.readsBack_scaled hmeans.1 hscales.1 column.toUInt32 places,
        ih hmeans.2 hscales.2⟩

theorem LinearModel.exists_readsAsTerm_of_mem {column : Nat} {coefficients : List Float}
    {places : Nat} (h : ∀ v ∈ coefficients, (Binary64.ofFloat v).isFinite = true) :
    ∀ e ∈ termsFrom column coefficients, ∃ t, e.ReadsAsTerm places t := by
  induction coefficients generalizing column with
  | nil =>
    intro e he
    cases he
  | cons v coefficients ih =>
    rw [List.forall_mem_cons] at h
    rw [termsFrom]
    split
    · rw [List.forall_mem_cons]
      exact ⟨Expr.exists_readsAsTerm_weighted h.1 column.toUInt32 places, ih h.2⟩
    · exact ih h.2

namespace Model

/-- The fitted numbers of the node at the root. -/
def parameters : Model → List Float
  | .scaler s => s.mean ++ s.scale
  | .linear l => l.coefficients ++ [l.intercept]
  | _ => []

/-- All fitted numbers in the tree are finite. -/
def IsFinite (m : Model) : Prop :=
  ∀ n ∈ m.nodes, ∀ v ∈ n.parameters, (Binary64.ofFloat v).isFinite = true

variable {places : Nat}

theorem readsBack_leafDefinition {name : String} {x : Except DataError Body}
    (h : ∀ b, x = .ok b → ∀ e ∈ b.exprs, e.ReadsBack places) :
    ∀ f ∈ leafDefinition name x, ∀ e ∈ f.body.exprs, e.ReadsBack places := by
  cases x with
  | error =>
    intro f hf
    cases hf
  | ok b =>
    intro f hf
    rw [leafDefinition, List.mem_singleton] at hf
    subst hf
    exact h b rfl

mutual

theorem readsBack_definitions : ∀ (m : Model) (name : String), m.IsFinite →
    ∀ f ∈ m.definitions name, ∀ e ∈ f.body.exprs, e.ReadsBack places
  | .pipeline steps, name, h => by
    intro f hf
    rw [definitions, List.mem_append, List.mem_singleton] at hf
    rcases hf with hf | rfl
    · apply readsBack_stepDefinitions steps name _ f hf
      intro n hn
      exact h n (List.mem_cons_of_mem _ hn)
    · intro e he
      cases he
  | .search none, name, h => by
    intro f hf
    cases hf
  | .search (some m), name, h => by
    apply readsBack_definitions m name
    intro n hn
    exact h n (List.mem_cons_of_mem _ hn)
  | .polynomial p, name, h => by
    apply readsBack_leafDefinition
    intro b hb e he
    obtain ⟨-, rfl⟩ := PolynomialFeatures.body_eq_ok_iff.mp hb
    obtain ⟨row, -, rfl⟩ := List.mem_map.mp he
    exact PolynomialFeatures.readsBack_monomial row places
  | .scaler s, name, h => by
    have hfinite := h (.scaler s) List.mem_cons_self
    rw [parameters, List.forall_mem_append] at hfinite
    apply readsBack_leafDefinition
    intro b hb
    obtain ⟨-, rfl⟩ := StandardScaler.body_eq_ok_iff.mp hb
    exact StandardScaler.readsBack_of_mem hfinite.1 hfinite.2
  | .linear l, name, h => by
    have hfinite := h (.linear l) List.mem_cons_self
    rw [parameters, List.forall_mem_append, List.forall_mem_singleton] at hfinite
    apply readsBack_leafDefinition
    rintro b ⟨⟩ e he
    rw [LinearModel.body, Body.exprs, List.mem_singleton] at he
    subst he
    apply Expr.readsBack_sum (List.concat_ne_nil _ _)
    rw [List.forall_mem_append, List.forall_mem_singleton]
    exact ⟨LinearModel.exists_readsAsTerm_of_mem hfinite.1,
      Expr.exists_readsAsTerm_const hfinite.2 places⟩
  | .unsupported _, name, h => by
    intro f hf
    cases hf

theorem readsBack_stepDefinitions : ∀ (steps : List Step) (name : String),
    (∀ n ∈ stepNodes steps, ∀ v ∈ n.parameters, (Binary64.ofFloat v).isFinite = true) →
    ∀ f ∈ stepDefinitions name steps, ∀ e ∈ f.body.exprs, e.ReadsBack places
  | [], name, h => by
    intro f hf
    cases hf
  | ⟨step, m⟩ :: rest, name, h => by
    rw [stepNodes, List.forall_mem_append] at h
    rw [stepDefinitions, List.forall_mem_append]
    exact ⟨readsBack_definitions m _ h.1, readsBack_stepDefinitions rest name h.2⟩

end

/-! ## Scripts -/

mutual

theorem isIdentifier_derivedNames : ∀ (m : Model) (name : String), m.Sound →
    Name.isIdentifier name = true → ∀ n ∈ m.derivedNames name, Name.isIdentifier n = true
  | .pipeline steps, name, h, hname => by
    obtain ⟨hcheck, hsteps⟩ := sound_pipeline_iff.mp h
    rw [derivedNames, List.forall_mem_append, List.forall_mem_singleton]
    refine ⟨?_, hname⟩
    exact isIdentifier_derivedStepNames steps name hsteps hname (isStepName_of_checkSteps hcheck)
  | .search none, name, h, _ => absurd h not_sound_search_none
  | .search (some m), name, h, hname =>
    isIdentifier_derivedNames m name (sound_search_iff.mp h) hname
  | .polynomial _, name, _, hname => List.forall_mem_singleton.mpr hname
  | .scaler _, name, _, hname => List.forall_mem_singleton.mpr hname
  | .linear _, name, _, hname => List.forall_mem_singleton.mpr hname
  | .unsupported _, name, _, hname => List.forall_mem_singleton.mpr hname

theorem isIdentifier_derivedStepNames : ∀ (steps : List Step) (name : String),
    (∀ s ∈ steps, s.estimator.Sound) → Name.isIdentifier name = true →
    (∀ s ∈ steps, Name.isStepName s.name = true) →
    ∀ n ∈ derivedStepNames name steps, Name.isIdentifier n = true
  | [], name, _, _, _ => List.forall_mem_nil _
  | ⟨step, m⟩ :: rest, name, hsound, hname, hsteps => by
    rw [List.forall_mem_cons] at hsound hsteps
    rw [derivedStepNames, List.forall_mem_append]
    exact ⟨isIdentifier_derivedNames m _ hsound.1 (Name.isIdentifier_ofStep hname hsteps.1),
      isIdentifier_derivedStepNames rest name hsound.2 hname hsteps.2⟩

end

theorem readable_of_compileWith {m : Model} {reporting : Reporting} {name : String} {p : Program}
    (hfinite : m.IsFinite) (h : m.compileWith reporting name = .ok p) (places : Nat) :
    ∀ f ∈ p.functions, Sqf.Readable places f := by
  have hdefined := compileWith_wellDefined h
  obtain ⟨hname, hsound, -, rfl⟩ := (compileWith_eq_ok_iff m reporting name p).mp h
  have hnames : ∀ n ∈ (Program.mk (m.definitions name)).names, Name.isIdentifier n = true := by
    rw [Program.names_mk, map_name_definitions name hsound]
    exact isIdentifier_derivedNames m name hsound hname
  intro f hf
  refine ⟨hnames f.name (List.mem_map_of_mem hf), fun c hc => ?_, ?_⟩
  · -- what a chain calls is the name of a function before it
    obtain ⟨k, hk⟩ := List.mem_iff_getElem?.mp hf
    obtain ⟨j, -, hj⟩ := hdefined.earlier k f hk c hc
    exact hnames c (List.mem_of_getElem? hj)
  · exact readsBack_definitions m name hfinite f hf

theorem scriptWith_eq_ok_iff {m : Model} {reporting : Reporting} {name : String} {s : Settings}
    {code : String} : m.scriptWith reporting name s = .ok code ↔
      s.check = .ok () ∧ ∃ p, m.compileWith reporting name = .ok p ∧ p.render s = code := by
  unfold scriptWith
  cases hcheck : s.check with
  | error e => simp
  | ok => cases m.compileWith reporting name <;> simp [Except.map]

theorem isBlank_of_check {s : Settings} (h : s.check = .ok ()) :
    ∀ c ∈ s.indent.toList, Words.isBlank c = true := by
  obtain ⟨-, hblank, -⟩ := Settings.check_eq_ok_iff.mp h
  intro c hc
  have hspace := List.all_eq_true.mp hblank c hc
  simp only [Bool.or_eq_true, beq_iff_eq] at hspace
  rcases hspace with rfl | rfl <;> decide

/-- Generated code says what the compiled program says. It can be read, what is read are the
functions of the program in order, and their expressions have the values of the program's own, at
all inputs and in exact arithmetic, with every constant taken for the decimal that its literal
denotes and a division for whatever it may give. -/
theorem script_read_back (m : Model) (reporting : Reporting) (name : String) (s : Settings)
    (code : String) (hfinite : m.IsFinite) (h : m.scriptWith reporting name s = .ok code) :
    (∃ p ds, m.compileWith reporting name = .ok p ∧ Sqf.parse? code = some ds ∧
      List.Forall₂ (Sqf.Definition.Says s.decimalPlaces) ds p.functions) ∧
    ∀ v, (Binary64.ofFloat v).isFinite = true →
      ∃ f, Sqf.formula? (Sqf.lex (Literal.text s.decimalPlaces v)) = some (f, []) ∧
        ∀ quotient x, f.value quotient x = Literal.decimal s.decimalPlaces v := by
  obtain ⟨hcheck, p, hp, rfl⟩ := scriptWith_eq_ok_iff.mp h
  have hreadable := readable_of_compileWith hfinite hp s.decimalPlaces
  obtain ⟨ds, hparse, hds⟩ := Sqf.exists_parse?_render hreadable (isBlank_of_check hcheck)
  refine ⟨⟨p, ds, hp, hparse, hds⟩, ?_⟩
  intro v hv
  exact Expr.exists_formula?_literal hv s.decimalPlaces

/-- Signs in all places where they are joined, and a power of each kind. -/
def signed : Model :=
  .pipeline [⟨"scale", .scaler ⟨[-1.5, 2.0], [4.0, -0.5]⟩⟩,
    ⟨"expand", .polynomial ⟨[[0, 0], [1, 0], [2, 1]]⟩⟩,
    ⟨"fit", .search (some (.linear ⟨[-2.0, 0.0, -3.0], -0.25⟩))⟩]

theorem script_read_back_signed :
    signed.IsFinite ∧ ∃ code, signed.script "f" {} = .ok code ∧
      ∃ p ds, signed.compile "f" = .ok p ∧ Sqf.parse? code = some ds ∧
        List.Forall₂ (Sqf.Definition.Says 6) ds p.functions := by
  have hfinite : signed.IsFinite := by
    unfold IsFinite
    decide +kernel
  have h : signed.script "f" {} = .ok (Program.render {} ⟨signed.definitions "f"⟩) := rfl
  exact ⟨hfinite, _, h, (script_read_back signed .first "f" {} _ hfinite h).1⟩

end Model

end RegressionScript
