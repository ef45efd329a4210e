import Mathlib
import RegressionScript.Proofs.Bits
import RegressionScript.Proofs.Calls
import RegressionScript.Proofs.Emission

/-!
# The meaning of models

A model is interpreted on its tree alone. No function is called and no name is looked up; names are
carried along only for the error of a leaf that is given a number. Running the program of a model
comes to the same, value for value and error for error.
-/

namespace RegressionScript

set_option autoImplicit false

/-! ## Interpretation -/

def inputAt (xs : List Float) (column : Nat) : Except RunError Float :=
  match xs[column]? with
  | some x => .ok x
  | none => .error (.missingInput column xs.length)

namespace PolynomialFeatures

def timesPower (xs : List Float) (acc : Float) : UInt32 × Nat → Except RunError Float
  | (power, column) => do
    let x ← inputAt xs column
    .ok (acc * if power = 1 then x else Power.word x power)

/-- The product for one row, from one on over the columns whose exponent is not zero. -/
def rowMeaning (xs : List Float) (row : List UInt32) : Except RunError Float :=
  (row.zipIdx.filter fun (power, _) => power ≠ 0).foldlM (timesPower xs) 1.0

def meaning (p : PolynomialFeatures) (xs : List Float) : Except RunError Value :=
  (p.powers.mapM (rowMeaning xs)).map .vector

end PolynomialFeatures

namespace StandardScaler

def scaled (xs : List Float) : (Float × Float) × Nat → Except RunError Float
  | ((mean, scale), column) => do
    let x ← inputAt xs column
    .ok ((x - mean) / scale)

def meaning (s : StandardScaler) (xs : List Float) : Except RunError Value :=
  ((s.mean.zip s.scale).zipIdx.mapM (scaled xs)).map .vector

end StandardScaler

namespace LinearModel

def plusTerm (xs : List Float) (acc : Float) : Float × Nat → Except RunError Float
  | (coefficient, column) => do
    let x ← inputAt xs column
    .ok (acc + 1.0 * coefficient * x)

/-- The weighted inputs are added to zero, those of coefficient zero left out, and the constant is
added last. -/
def meaning (l : LinearModel) (xs : List Float) : Except RunError Value := do
  let sum ← (l.coefficients.zipIdx.filter fun (coefficient, _) => coefficient != 0.0).foldlM
    (plusTerm xs) 0.0
  .ok (.scalar (sum + l.intercept))

end LinearModel

namespace Model

def onVector (name : String) (f : List Float → Except RunError Value) :
    Value → Except RunError Value
  | .vector xs => f xs
  | .scalar _ => .error (.scalarInput name)

mutual

/-- The value of a model. One that has no program counts as an undefined function. -/
def meaning : Model → String → Value → Except RunError Value
  | .pipeline steps, name, v => stepsMeaning name steps v
  | .search none, name, _ => .error (.undefined name)
  | .search (some m), name, v => m.meaning name v
  | .polynomial p, name, v => onVector name p.meaning v
  | .scaler s, name, v => onVector name s.meaning v
  | .linear l, name, v => onVector name l.meaning v
  | .unsupported _, name, _ => .error (.undefined name)

/-- Hands the value on from step to step, up to the first error. -/
def stepsMeaning (name : String) : List Step → Value → Except RunError Value
  | [], v => .ok v
  | ⟨step, m⟩ :: rest, v => do
    let w ← m.meaning (Name.ofStep name step) v
    stepsMeaning name rest w

end

/-- How many inputs a leaf has. -/
def width : Model → Nat
  | .polynomial p => p.inputs
  | .scaler s => s.mean.length
  | .linear l => l.coefficients.length
  | _ => 0

end Model

/-! ## Leaves -/

theorem Expr.eval_input (xs : List Float) (column : Nat) (h : column < 2 ^ 32) :
    (Expr.input column.toUInt32).eval xs = inputAt xs column := by
  have hcolumn : column.toUInt32.toNat = column := UInt32.toNat_ofNat_of_lt' h
  rw [Expr.eval, hcolumn]
  rfl

theorem Expr.evalAll_eq_mapM (xs : List Float) (es : List Expr) :
    Expr.evalAll xs es = es.mapM (Expr.eval xs) := by
  induction es with
  | nil => rfl
  | cons e es ih =>
    rw [Expr.evalAll, List.mapM_cons, ih]
    rfl

namespace PolynomialFeatures

theorem length_eq_of_checkRowsFrom {expected row : Nat} {rows : List (List UInt32)}
    (h : checkRowsFrom expected row rows = .ok ()) : ∀ r ∈ rows, r.length = expected := by
  induction rows generalizing row with
  | nil => simp
  | cons r rows ih =>
    unfold checkRowsFrom at h
    split at h
    · rename_i hr
      exact List.forall_mem_cons.mpr ⟨hr, ih h⟩
    · cases h

theorem length_eq_of_check {p : PolynomialFeatures} (h : p.check = .ok ()) :
    ∀ r ∈ p.powers, r.length = p.inputs := by
  unfold check at h
  split at h
  · cases h
  · exact length_eq_of_checkRowsFrom h

theorem evalProduct_factorsFrom (xs : List Float) (row : List UInt32) (column : Nat) (acc : Float)
    (h : column + row.length ≤ 2 ^ 32) :
    Expr.evalProduct xs acc (factorsFrom column row) =
      ((row.zipIdx column).filter fun (power, _) => power ≠ 0).foldlM (timesPower xs) acc := by
  induction row generalizing column acc with
  | nil => rfl
  | cons power row ih =>
    rw [List.length_cons] at h
    have hinput := Expr.eval_input xs column (by omega)
    have hrest := fun acc => ih (column + 1) acc (by omega)
    rw [factorsFrom, List.zipIdx_cons]
    split
    · rename_i h0
      subst h0
      exact hrest acc
    · rename_i h0
      rw [List.filter_cons_of_pos (by simpa using h0), List.foldlM_cons]
      split
      · rename_i h1
        rw [Expr.evalProduct, hinput, timesPower]
        cases inputAt xs column with
        | error e => rfl
        | ok x =>
          simp only [ok_bind, if_pos h1]
          exact hrest (acc * x)
      · rename_i h1
        rw [Expr.evalProduct, Expr.eval, hinput, timesPower]
        cases inputAt xs column with
        | error e => rfl
        | ok x =>
          simp only [ok_bind, if_neg h1]
          exact hrest (acc * Power.word x power)

theorem eval_monomial (xs : List Float) {row : List UInt32} (h : row.length ≤ 2 ^ 32) :
    (monomial row).eval xs = rowMeaning xs row := by
  have hprod : (monomial row).eval xs = Expr.evalProduct xs 1.0 (factorsFrom 0 row) := by
    unfold monomial
    split
    · rename_i hrow
      rw [hrow]
      rfl
    · rfl
  rw [hprod, evalProduct_factorsFrom xs row 0 1.0 (by omega)]
  rfl

theorem mapM_monomial (xs : List Float) {rows : List (List UInt32)}
    (h : ∀ row ∈ rows, row.length ≤ 2 ^ 32) :
    (rows.map monomial).mapM (Expr.eval xs) = rows.mapM (rowMeaning xs) := by
  induction rows with
  | nil => rfl
  | cons row rows ih =>
    rw [List.forall_mem_cons] at h
    rw [List.map_cons, List.mapM_cons, List.mapM_cons, eval_monomial xs h.1, ih h.2]

end PolynomialFeatures

theorem StandardScaler.mapM_elementsFrom (xs : List Float) (means scales : List Float)
    (column : Nat) (h : column + means.length ≤ 2 ^ 32) :
    (elementsFrom column means scales).mapM (Expr.eval xs) =
      ((means.zip scales).zipIdx column).mapM (scaled xs) := by
  induction means generalizing scales column with
  | nil => rfl
  | cons mean means ih =>
    cases scales with
    | nil => rfl
    | cons scale scales =>
      rw [List.length_cons] at h
      have hinput := Expr.eval_input xs column (by omega)
      have helement : Expr.eval xs (.div (.sub (.input column.toUInt32) (.const mean))
          (.const scale)) = scaled xs ((mean, scale), column) := by
        rw [Expr.eval, Expr.eval, Expr.eval, hinput, scaled]
        cases inputAt xs column with
        | error e => simp only [error_bind]
        | ok x => simp only [ok_bind, Expr.eval]
      rw [elementsFrom, List.zip_cons_cons, List.zipIdx_cons, List.mapM_cons, List.mapM_cons,
        helement, ih scales (column + 1) (by omega)]

namespace LinearModel

theorem evalSum_append (xs : List Float) (acc : Float) (es fs : List Expr) :
    Expr.evalSum xs acc (es ++ fs) =
      (Expr.evalSum xs acc es >>= fun acc => Expr.evalSum xs acc fs) := by
  induction es generalizing acc with
  | nil => rfl
  | cons e es ih =>
    simp only [List.cons_append, Expr.evalSum]
    cases e.eval xs with
    | error e => rfl
    | ok x => exact ih (acc + x)

theorem evalSum_termsFrom (xs : List Float) (coefficients : List Float) (column : Nat)
    (acc : Float) (h : column + coefficients.length ≤ 2 ^ 32) :
    Expr.evalSum xs acc (termsFrom column coefficients) =
      ((coefficients.zipIdx column).filter fun (coefficient, _) => coefficient != 0.0).foldlM
        (plusTerm xs) acc := by
  induction coefficients generalizing column acc with
  | nil => rfl
  | cons coefficient coefficients ih =>
    rw [List.length_cons] at h
    have hinput := Expr.eval_input xs column (by omega)
    have hrest := fun acc => ih (column + 1) acc (by omega)
    have hwritten : isWritten coefficient = (coefficient != 0.0) := by
      rw [isWritten, Binary64.isZero_ofFloat]
      rfl
    rw [termsFrom, List.zipIdx_cons, hwritten]
    split
    · rename_i hc
      rw [List.filter_cons_of_pos (by simpa using hc), List.foldlM_cons, Expr.evalSum, Expr.eval,
        Expr.evalProduct, Expr.eval, ok_bind, Expr.evalProduct, hinput, plusTerm]
      cases inputAt xs column with
      | error e => rfl
      | ok x => exact hrest (acc + 1.0 * coefficient * x)
    · rename_i hc
      rw [List.filter_cons_of_neg (by simpa using hc)]
      exact hrest acc

end LinearModel

/-! ## Programs -/

namespace Function

variable (call : String → Value → Except RunError Value) (name : String)

theorem apply_vector (es : List Expr) (xs : List Float) :
    apply call ⟨name, .vector es⟩ (.vector xs) = (es.mapM (Expr.eval xs)).map .vector := by
  rw [← Expr.evalAll_eq_mapM]
  rfl

theorem apply_scalar (e : Expr) (xs : List Float) :
    apply call ⟨name, .scalar e⟩ (.vector xs) = (e.eval xs).map .scalar := rfl

end Function

namespace Program

variable {p : Program} {f : Function}

theorem callWithin_eq_apply (h : p.get? f.name = some f) {depth : Nat} (hdepth : 0 < depth)
    (v : Value) : p.callWithin depth f.name v = f.apply (p.callWithin (depth - 1)) v := by
  cases depth with
  | zero => cases hdepth
  | succ depth =>
    rw [callWithin, h]
    rfl

theorem eval_eq_callWithin (hentry : p.entry? = some f) (hget : p.get? f.name = some f)
    (v : Value) : p.eval v = p.callWithin (p.functions.length + 1) f.name v := by
  rw [eval, hentry, callWithin, hget]
  rfl

end Program

namespace Model

variable {name : String} {p : Program}

theorem apply_polynomial (call : String → Value → Except RunError Value)
    {features : PolynomialFeatures} (hcheck : features.check = .ok ())
    (hwidth : features.inputs ≤ 2 ^ 32) (v : Value) :
    Function.apply call ⟨name, .vector (features.powers.map PolynomialFeatures.monomial)⟩ v =
      onVector name features.meaning v := by
  cases v with
  | scalar x => rfl
  | vector xs =>
    have hrows : ∀ row ∈ features.powers, row.length ≤ 2 ^ 32 := by
      intro row hrow
      rw [PolynomialFeatures.length_eq_of_check hcheck row hrow]
      exact hwidth
    rw [Function.apply_vector, PolynomialFeatures.mapM_monomial xs hrows]
    rfl

theorem apply_scaler (call : String → Value → Except RunError Value) {s : StandardScaler}
    (hwidth : s.mean.length ≤ 2 ^ 32) (v : Value) :
    Function.apply call ⟨name, .vector (StandardScaler.elementsFrom 0 s.mean s.scale)⟩ v =
      onVector name s.meaning v := by
  cases v with
  | scalar x => rfl
  | vector xs =>
    rw [Function.apply_vector, StandardScaler.mapM_elementsFrom xs s.mean s.scale 0 (by omega)]
    rfl

theorem apply_linear (call : String → Value → Except RunError Value) {l : LinearModel}
    (hwidth : l.coefficients.length ≤ 2 ^ 32) (v : Value) :
    Function.apply call ⟨name, l.body⟩ v = onVector name l.meaning v := by
  cases v with
  | scalar x => rfl
  | vector xs =>
    rw [LinearModel.body, Function.apply_scalar, Expr.eval, LinearModel.evalSum_append,
      LinearModel.evalSum_termsFrom xs l.coefficients 0 0.0 (by omega), onVector,
      LinearModel.meaning]
    cases List.foldlM (LinearModel.plusTerm xs) 0.0 _ <;> rfl

mutual

/-- Calling the function of a model in any program that finds its functions under their names. Calls
are nested no deeper than there are functions. -/
theorem callWithin_eq_meaning : ∀ {m : Model} {name : String} {p : Program} {depth : Nat},
    m.Sound → (∀ n ∈ m.nodes, n.width ≤ 2 ^ 32) →
    (∀ f ∈ m.definitions name, p.get? f.name = some f) →
    (m.definitions name).length ≤ depth →
    ∀ v : Value, p.callWithin depth name v = m.meaning name v
  | .pipeline steps, name, p, depth, hsound, hwidth, hget, hdepth, v => by
    rw [definitions] at hget hdepth
    rw [List.length_append, List.length_singleton] at hdepth
    have hchain := hget _ (List.mem_append_right _ (List.mem_singleton_self _))
    rw [meaning, Program.callWithin_eq_apply hchain (by omega), Function.apply_chain rfl]
    exact foldlM_callWithin_eq_stepsMeaning (sound_pipeline_iff.mp hsound).2
      (fun n hn => hwidth n (List.mem_cons_of_mem _ hn))
      (fun f hf => hget f (List.mem_append_left _ hf)) (by omega) v
  | .search none, name, p, depth, hsound, _, _, _, v => absurd hsound not_sound_search_none
  | .search (some m), name, p, depth, hsound, hwidth, hget, hdepth, v => by
    rw [meaning]
    exact callWithin_eq_meaning (sound_search_iff.mp hsound)
      (fun n hn => hwidth n (List.mem_cons_of_mem _ hn)) hget hdepth v
  | .polynomial features, name, p, depth, hsound, hwidth, hget, hdepth, v => by
    have hcheck := sound_polynomial_iff.mp hsound
    rw [definitions, PolynomialFeatures.body_eq_ok_iff.mpr ⟨hcheck, rfl⟩] at hget hdepth
    rw [meaning, Program.callWithin_eq_apply (hget _ (List.mem_singleton_self _)) hdepth]
    exact apply_polynomial _ hcheck (hwidth _ (List.mem_singleton_self _)) v
  | .scaler s, name, p, depth, hsound, hwidth, hget, hdepth, v => by
    have hcheck := sound_scaler_iff.mp hsound
    rw [definitions, StandardScaler.body_eq_ok_iff.mpr ⟨hcheck, rfl⟩] at hget hdepth
    rw [meaning, Program.callWithin_eq_apply (hget _ (List.mem_singleton_self _)) hdepth]
    exact apply_scaler _ (hwidth _ (List.mem_singleton_self _)) v
  | .linear l, name, p, depth, hsound, hwidth, hget, hdepth, v => by
    rw [definitions] at hget hdepth
    rw [meaning, Program.callWithin_eq_apply (hget _ (List.mem_singleton_self _)) hdepth]
    exact apply_linear _ (hwidth _ (List.mem_singleton_self _)) v
  | .unsupported e, name, p, depth, hsound, _, _, _, v => absurd hsound (not_sound_unsupported e)

theorem foldlM_callWithin_eq_stepsMeaning : ∀ {steps : List Step} {name : String} {p : Program}
    {depth : Nat}, (∀ s ∈ steps, s.estimator.Sound) →
    (∀ n ∈ stepNodes steps, n.width ≤ 2 ^ 32) →
    (∀ f ∈ stepDefinitions name steps, p.get? f.name = some f) →
    (stepDefinitions name steps).length ≤ depth →
    ∀ v : Value, (steps.map fun s => Name.ofStep name s.name).foldlM
      (fun v callee => p.callWithin depth callee v) v = stepsMeaning name steps v
  | [], _, _, _, _, _, _, _, v => rfl
  | ⟨step, m⟩ :: rest, name, p, depth, hsound, hwidth, hget, hdepth, v => by
    rw [stepNodes] at hwidth
    rw [stepDefinitions] at hget hdepth
    rw [List.length_append] at hdepth
    have hstep := callWithin_eq_meaning (hsound ⟨step, m⟩ List.mem_cons_self)
      (fun n hn => hwidth n (List.mem_append_left _ hn))
      (fun f hf => hget f (List.mem_append_left _ hf)) (Nat.le_of_add_right_le hdepth) v
    have hrest := foldlM_callWithin_eq_stepsMeaning
      (fun s hs => hsound s (List.mem_cons_of_mem _ hs))
      (fun n hn => hwidth n (List.mem_append_right _ hn))
      (fun f hf => hget f (List.mem_append_right _ hf)) (Nat.le_of_add_left_le hdepth)
    rw [List.map_cons, List.foldlM_cons, stepsMeaning, hstep]
    exact congrArg _ (funext hrest)

end

/-- The program of a model computes its meaning, with the same value or the same error. -/
theorem eval_compiled_eq_meaning (m : Model) (reporting : Reporting) (name : String) (p : Program)
    (v : Value) (hwidth : ∀ n ∈ m.nodes, n.width ≤ 2 ^ 32)
    (h : m.compileWith reporting name = .ok p) : p.eval v = m.meaning name v := by
  obtain ⟨-, hsound, hnd, rfl⟩ := (compileWith_eq_ok_iff m reporting name p).mp h
  have hnames := map_name_definitions name hsound
  rw [← hnames] at hnd
  have hget : ∀ f ∈ m.definitions name, (Program.mk (m.definitions name)).get? f.name = some f :=
    fun f hf => Program.get?_eq_of_nodup hnd hf
  have hlast := getLast?_derivedNames name hsound
  rw [← hnames, List.getLast?_map, Option.map_eq_some_iff] at hlast
  obtain ⟨f, hf, rfl⟩ := hlast
  rw [Program.eval_eq_callWithin hf (hget f (List.mem_of_getLast? hf))]
  exact callWithin_eq_meaning hsound hwidth hget (Nat.le_succ _) v

/-- A pipeline inside a pipeline, and a step whose name could be taken for one of an inner step. -/
def nested : Model :=
  .pipeline [⟨"a", .pipeline [⟨"b", .scaler ⟨[1.0], [2.0]⟩⟩]⟩,
    ⟨"a_c", .search (some (.linear ⟨[3.0], 0.5⟩))⟩]

theorem eval_compiled_nested :
    (∀ n ∈ nested.nodes, n.width ≤ 2 ^ 32) ∧ ∃ p, nested.compile "f" = .ok p ∧
      p.eval (.vector [4.0]) = .ok (.scalar 5.0) ∧
      p.eval (.scalar 4.0) = .error (.scalarInput "f_a_b") := by
  have hwidth : ∀ n ∈ nested.nodes, n.width ≤ 2 ^ 32 := by decide +kernel
  have h : nested.compile "f" = .ok ⟨nested.definitions "f"⟩ := rfl
  refine ⟨hwidth, _, h, ?_, ?_⟩
  · rw [eval_compiled_eq_meaning nested .first "f" _ (.vector [4.0]) hwidth h]
    rfl
  · rw [eval_compiled_eq_meaning nested .first "f" _ (.scalar 4.0) hwidth h]
    rfl

end Model

end RegressionScript
