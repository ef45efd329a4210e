import Mathlib
import RegressionScript.Proofs.Formulas
import RegressionScript.Proofs.Meaning

/-!
# What the bodies of the leaves denote

Read in exact arithmetic, the body of a leaf is the function that was fitted. The columns, powers
and coefficients that its expressions leave out make no difference to that. The expressions read the
inputs of the leaf and no others, so they have a value on every array that is long enough.
-/

namespace RegressionScript

set_option autoImplicit false

/-- A reading of constants that takes every finite one for its exact value. -/
def ReadsExactly (constant : Float → ℚ) : Prop :=
  ∀ v, (Binary64.ofFloat v).isFinite = true → constant v = (Binary64.ofFloat v).toRat

theorem ReadsExactly.eq_zero {constant : Float → ℚ} (h : ReadsExactly constant) {v : Float}
    (hv : (Binary64.ofFloat v).isZero = true) : constant v = 0 := by
  cases hofFloat : Binary64.ofFloat v with
  | nan =>
    rw [hofFloat] at hv
    cases hv
  | infinite negative =>
    rw [hofFloat] at hv
    cases hv
  | finite negative significand exponent =>
    have hzero : significand = 0 := by
      rw [hofFloat] at hv
      exact beq_iff_eq.mp hv
    have hfinite : (Binary64.ofFloat v).isFinite = true := by
      rw [hofFloat]
      rfl
    rw [h v hfinite, hofFloat, Binary64.toRat, hzero, Nat.cast_zero, zero_mul, mul_zero]

/-! ## Fitted functions -/

/-- For each row the product of all inputs, raised to the powers of the row. -/
def PolynomialFeatures.fitted (p : PolynomialFeatures) (x : Nat → ℚ) : List ℚ :=
  p.powers.map fun row => (row.mapIdx fun j power => x j ^ power.toNat).prod

/-- Every input less its mean, divided by its scale. What a division gives is left open. -/
def StandardScaler.fitted (constant : Float → ℚ) (s : StandardScaler) (quotient : ℚ → ℚ → ℚ)
    (x : Nat → ℚ) : List ℚ :=
  (s.mean.zip s.scale).mapIdx fun j moments =>
    quotient (x j - constant moments.1) (constant moments.2)

/-- The sum of all weighted inputs, those of weight zero included, and the intercept. -/
def LinearModel.fitted (constant : Float → ℚ) (l : LinearModel) (x : Nat → ℚ) : ℚ :=
  (l.coefficients.mapIdx fun j coefficient => constant coefficient * x j).sum +
    constant l.intercept

/-- Expressions that have these exact values, whatever a division gives, and read only the first
inputs. -/
structure Expr.Denote (constant : Float → ℚ) (es : List Expr) (inputs : Nat)
    (values : (ℚ → ℚ → ℚ) → (Nat → ℚ) → List ℚ) : Prop where
  exact : ∀ quotient x, exactAll quotient constant x es = values quotient x
  below : ∀ e ∈ es, ∀ i ∈ e.inputs, i < inputs
  evaluates : ∀ xs : List Float, inputs ≤ xs.length → ∀ e ∈ es, ∃ y, e.eval xs = .ok y

namespace Expr

theorem exactAll_eq_map (quotient : ℚ → ℚ → ℚ) (constant : Float → ℚ) (x : Nat → ℚ)
    (es : List Expr) : exactAll quotient constant x es = es.map (exact quotient constant x) := by
  induction es with
  | nil => rfl
  | cons e es ih => rw [exactAll, ih, List.map_cons]

theorem exact_input (quotient : ℚ → ℚ → ℚ) (constant : Float → ℚ) (x : Nat → ℚ) {column : Nat}
    (h : column < 2 ^ 32) : (input column.toUInt32).exact quotient constant x = x column := by
  rw [exact, UInt32.toNat_ofNat_of_lt' h]

theorem inputs_input {column : Nat} (h : column < 2 ^ 32) :
    (input column.toUInt32).inputs = [column] := by
  rw [inputs, UInt32.toNat_ofNat_of_lt' h]

theorem denote_of_below {constant : Float → ℚ} {es : List Expr} {n : Nat}
    {values : (ℚ → ℚ → ℚ) → (Nat → ℚ) → List ℚ}
    (hexact : ∀ quotient x, exactAll quotient constant x es = values quotient x)
    (hbelow : ∀ e ∈ es, ∀ i ∈ e.inputs, i < n) : Denote constant es n values where
  exact := hexact
  below := hbelow
  evaluates _ hxs e he := exists_eval_eq_ok fun i hi => (hbelow e he i hi).trans_le hxs

theorem lt_of_inputs_sublist {es : List Expr} {n : Nat}
    (h : (inputsAll es).Sublist (List.range' 0 n)) {i : Nat} (hi : i ∈ inputsAll es) : i < n := by
  have hrange := List.mem_range'_1.mp (h.subset hi)
  rw [Nat.zero_add] at hrange
  exact hrange.2

theorem lt_of_mem_of_inputs_sublist {es : List Expr} {n : Nat}
    (h : (inputsAll es).Sublist (List.range' 0 n)) : ∀ e ∈ es, ∀ i ∈ e.inputs, i < n := by
  intro e he i hi
  apply lt_of_inputs_sublist h
  rw [inputsAll_eq_flatMap]
  exact List.mem_flatMap.mpr ⟨e, he, hi⟩

end Expr

/-! ## Bodies -/

section Bodies

variable (quotient : ℚ → ℚ → ℚ) (constant : Float → ℚ) (x : Nat → ℚ)

namespace PolynomialFeatures

theorem prod_factorsFrom (row : List UInt32) (column : Nat) (h : column + row.length ≤ 2 ^ 32) :
    (Expr.exactAll quotient constant x (factorsFrom column row)).prod =
      ((row.zipIdx column).map fun p => x p.2 ^ p.1.toNat).prod := by
  induction row generalizing column with
  | nil => rfl
  | cons power row ih =>
    rw [List.length_cons] at h
    have hinput : (Expr.input column.toUInt32).exact quotient constant x = x column :=
      Expr.exact_input quotient constant x (by omega)
    rw [factorsFrom, List.zipIdx_cons, List.map_cons, List.prod_cons, ← ih (column + 1) (by omega)]
    split
    · rename_i hzero
      rw [hzero, UInt32.toNat_zero, pow_zero, one_mul]
    · split
      · rename_i hone
        rw [Expr.exactAll, List.prod_cons, hinput, hone, UInt32.toNat_one, pow_one]
      · rw [Expr.exactAll, List.prod_cons, Expr.exact, hinput]

theorem exact_monomial {row : List UInt32} (h : row.length ≤ 2 ^ 32) :
    (monomial row).exact quotient constant x =
      (row.mapIdx fun j power => x j ^ power.toNat).prod := by
  have hprod := prod_factorsFrom quotient constant x row 0 (by omega)
  rw [List.mapIdx_eq_zipIdx_map, ← hprod, monomial]
  split
  · rename_i hnil
    rw [hnil]
    simp [Expr.exact, Expr.exactAll]
  · rw [Expr.exact]

theorem inputs_factorsFrom (row : List UInt32) (column : Nat) (h : column + row.length ≤ 2 ^ 32) :
    (Expr.inputsAll (factorsFrom column row)).Sublist (List.range' column row.length) := by
  induction row generalizing column with
  | nil => exact List.Sublist.slnil
  | cons power row ih =>
    rw [List.length_cons] at h ⊢
    have hinput : (Expr.input column.toUInt32).inputs = [column] := Expr.inputs_input (by omega)
    have hrest := ih (column + 1) (by omega)
    rw [factorsFrom, List.range'_succ]
    split
    · exact hrest.cons column
    · split
      · rw [Expr.inputsAll, hinput]
        exact hrest.cons_cons column
      · rw [Expr.inputsAll, Expr.inputs, hinput]
        exact hrest.cons_cons column

theorem lt_of_mem_inputs_monomial {row : List UInt32} {i : Nat} (h : row.length ≤ 2 ^ 32)
    (hi : i ∈ (monomial row).inputs) : i < row.length := by
  rw [monomial] at hi
  split at hi
  · cases hi
  · exact Expr.lt_of_inputs_sublist (inputs_factorsFrom row 0 (by omega)) hi

theorem denote_body {p : PolynomialFeatures} (hcheck : p.check = .ok ())
    (hwidth : p.inputs ≤ 2 ^ 32) :
    Expr.Denote constant (p.powers.map monomial) p.inputs fun _ => p.fitted := by
  have hrows := length_eq_of_check hcheck
  apply Expr.denote_of_below
  · intro quotient x
    rw [Expr.exactAll_eq_map, List.map_map, fitted]
    apply List.map_congr_left
    intro row hrow
    rw [← hrows row hrow] at hwidth
    exact exact_monomial quotient constant x hwidth
  · rw [List.forall_mem_map]
    intro row hrow i hi
    rw [← hrows row hrow] at hwidth ⊢
    exact lt_of_mem_inputs_monomial hwidth hi

end PolynomialFeatures

namespace StandardScaler

theorem exactAll_elementsFrom (means scales : List Float) (column : Nat)
    (h : column + means.length ≤ 2 ^ 32) :
    Expr.exactAll quotient constant x (elementsFrom column means scales) =
      ((means.zip scales).zipIdx column).map fun p =>
        quotient (x p.2 - constant p.1.1) (constant p.1.2) := by
  induction means generalizing column scales with
  | nil => rfl
  | cons mean means ih =>
    cases scales with
    | nil => rfl
    | cons scale scales =>
      rw [List.length_cons] at h
      rw [elementsFrom, Expr.exactAll, ih scales (column + 1) (by omega), List.zip_cons_cons,
        List.zipIdx_cons, List.map_cons, Expr.exact, Expr.exact, Expr.exact,
        Expr.exact_input quotient constant x (by omega), Expr.exact]

theorem inputs_elementsFrom (means scales : List Float) (column : Nat)
    (h : column + means.length ≤ 2 ^ 32) :
    (Expr.inputsAll (elementsFrom column means scales)).Sublist
      (List.range' column means.length) := by
  induction means generalizing column scales with
  | nil => exact List.Sublist.slnil
  | cons mean means ih =>
    cases scales with
    | nil => exact List.nil_sublist _
    | cons scale scales =>
      rw [List.length_cons] at h ⊢
      have hinput : (Expr.input column.toUInt32).inputs = [column] := Expr.inputs_input (by omega)
      rw [elementsFrom, List.range'_succ, Expr.inputsAll, Expr.inputs, Expr.inputs, Expr.inputs,
        hinput, Expr.inputs]
      exact (ih scales (column + 1) (by omega)).cons_cons column

theorem denote_body {s : StandardScaler} (hwidth : s.mean.length ≤ 2 ^ 32) :
    Expr.Denote constant (elementsFrom 0 s.mean s.scale) s.mean.length (s.fitted constant) := by
  apply Expr.denote_of_below
  · intro quotient x
    rw [exactAll_elementsFrom quotient constant x _ _ 0 (by omega), fitted,
      List.mapIdx_eq_zipIdx_map]
  · exact Expr.lt_of_mem_of_inputs_sublist (inputs_elementsFrom s.mean s.scale 0 (by omega))

end StandardScaler

namespace LinearModel

variable {constant}

theorem sum_termsFrom (hconstant : ReadsExactly constant) (coefficients : List Float)
    (column : Nat) (h : column + coefficients.length ≤ 2 ^ 32) :
    (Expr.exactAll quotient constant x (termsFrom column coefficients)).sum =
      ((coefficients.zipIdx column).map fun p => constant p.1 * x p.2).sum := by
  induction coefficients generalizing column with
  | nil => rfl
  | cons coefficient coefficients ih =>
    rw [List.length_cons] at h
    rw [termsFrom, List.zipIdx_cons, List.map_cons, List.sum_cons, ← ih (column + 1) (by omega)]
    split
    · rw [Expr.exactAll, List.sum_cons, Expr.exact, Expr.exactAll, Expr.exactAll, Expr.exactAll,
        Expr.exact_input quotient constant x (by omega), Expr.exact, List.prod_cons,
        List.prod_singleton]
    · rename_i hwritten
      rw [isWritten, Bool.not_eq_true, Bool.not_eq_false'] at hwritten
      rw [hconstant.eq_zero hwritten, zero_mul, zero_add]

theorem inputs_termsFrom (coefficients : List Float) (column : Nat)
    (h : column + coefficients.length ≤ 2 ^ 32) :
    (Expr.inputsAll (termsFrom column coefficients)).Sublist
      (List.range' column coefficients.length) := by
  induction coefficients generalizing column with
  | nil => exact List.Sublist.slnil
  | cons coefficient coefficients ih =>
    rw [List.length_cons] at h ⊢
    have hinput : (Expr.input column.toUInt32).inputs = [column] := Expr.inputs_input (by omega)
    have hrest := ih (column + 1) (by omega)
    rw [termsFrom, List.range'_succ]
    split
    · rw [Expr.inputsAll, Expr.inputs, Expr.inputsAll, Expr.inputsAll, Expr.inputsAll, hinput]
      exact hrest.cons_cons column
    · exact hrest.cons column

theorem denote_body (hconstant : ReadsExactly constant) {l : LinearModel}
    (hwidth : l.coefficients.length ≤ 2 ^ 32) :
    Expr.Denote constant [.sum (termsFrom 0 l.coefficients ++ [.const l.intercept])]
      l.coefficients.length fun _ x => [l.fitted constant x] := by
  apply Expr.denote_of_below
  · intro quotient x
    have hsum := sum_termsFrom quotient x hconstant l.coefficients 0 (by omega)
    rw [fitted, List.mapIdx_eq_zipIdx_map, ← hsum]
    simp [Expr.exactAll_eq_map, Expr.exact]
  · rw [List.forall_mem_singleton]
    intro i hi
    have hterms : i ∈ Expr.inputsAll (termsFrom 0 l.coefficients) := by
      simpa [Expr.inputsAll_eq_flatMap, Expr.inputs] using hi
    exact Expr.lt_of_inputs_sublist (inputs_termsFrom l.coefficients 0 (by omega)) hterms

end LinearModel

end Bodies

namespace Model

/-- The body of every leaf denotes the fitted function. What a constant that is not finite is taken
for makes no difference, and neither does what a division by zero gives. -/
theorem bodies_denote_fitted (constant : Float → ℚ) (hconstant : ReadsExactly constant) :
    (∀ p : PolynomialFeatures, p.check = .ok () → p.inputs ≤ 2 ^ 32 →
      ∃ es, p.body = .ok (.vector es) ∧ Expr.Denote constant es p.inputs fun _ => p.fitted) ∧
    (∀ s : StandardScaler, s.check = .ok () → s.mean.length ≤ 2 ^ 32 →
      ∃ es, s.body = .ok (.vector es) ∧
        Expr.Denote constant es s.mean.length (s.fitted constant)) ∧
    ∀ l : LinearModel, l.coefficients.length ≤ 2 ^ 32 →
      ∃ e, l.body = .scalar e ∧
        Expr.Denote constant [e] l.coefficients.length fun _ x => [l.fitted constant x] := by
  refine ⟨?_, ?_, ?_⟩
  · intro p hcheck hwidth
    exact ⟨_, PolynomialFeatures.body_eq_ok_iff.mpr ⟨hcheck, rfl⟩,
      PolynomialFeatures.denote_body constant hcheck hwidth⟩
  · intro s hcheck hwidth
    exact ⟨_, StandardScaler.body_eq_ok_iff.mpr ⟨hcheck, rfl⟩,
      StandardScaler.denote_body constant hwidth⟩
  · intro l hwidth
    exact ⟨_, rfl, LinearModel.denote_body hconstant hwidth⟩

/-- A row without powers, a column that only one row reads, and coefficients of both zeros. -/
theorem bodies_denote_fitted_sparse :
    ∃ constant, ReadsExactly constant ∧
      (∃ es, PolynomialFeatures.body ⟨[[0, 1, 2], [0, 0, 0], [3, 0, 1]]⟩ = .ok (.vector es) ∧
        Expr.Denote constant es 3 fun _ x => [x 1 * x 2 ^ 2, 1, x 0 ^ 3 * x 2]) ∧
      (∃ es, StandardScaler.body ⟨[2.0], [4.0]⟩ = .ok (.vector es) ∧
        Expr.Denote constant es 1 fun quotient x => [quotient (x 0 - 2) 4]) ∧
      ∃ e, LinearModel.body ⟨[0.0, 4.0, -0.0], 2.0⟩ = .scalar e ∧
        Expr.Denote constant [e] 3 fun _ x => [4 * x 1 + 2] := by
  let constant (v : Float) : ℚ := (Binary64.ofFloat v).toRat
  have hconstant : ReadsExactly constant := fun _ _ => rfl
  have htwo : constant 2.0 = 2 := by
    have hofFloat : Binary64.ofFloat 2.0 = .finite false 0x10000000000000 (-51) := by
      decide +kernel
    norm_num [constant, hofFloat, Binary64.toRat, Literal.sign]
  have hfour : constant 4.0 = 4 := by
    have hofFloat : Binary64.ofFloat 4.0 = .finite false 0x10000000000000 (-50) := by
      decide +kernel
    norm_num [constant, hofFloat, Binary64.toRat, Literal.sign]
  have hzero : constant 0.0 = 0 := hconstant.eq_zero (by decide +kernel)
  have hminusZero : constant (-0.0) = 0 := hconstant.eq_zero (by decide +kernel)
  have hrows : PolynomialFeatures.fitted ⟨[[0, 1, 2], [0, 0, 0], [3, 0, 1]]⟩ =
      fun x => [x 1 * x 2 ^ 2, 1, x 0 ^ 3 * x 2] := by
    funext x
    simp [PolynomialFeatures.fitted]
  have hscaled : StandardScaler.fitted constant ⟨[2.0], [4.0]⟩ =
      fun quotient x => [quotient (x 0 - 2) 4] := by
    funext quotient x
    simp [StandardScaler.fitted, htwo, hfour]
  have hsum : (fun (_ : ℚ → ℚ → ℚ) x => [LinearModel.fitted constant ⟨[0.0, 4.0, -0.0], 2.0⟩ x]) =
      fun _ x => [4 * x 1 + 2] := by
    funext _ x
    simp [LinearModel.fitted, htwo, hfour, hzero, hminusZero]
  obtain ⟨hpolynomial, hscaler, hlinear⟩ := bodies_denote_fitted constant hconstant
  rw [← hrows, ← hscaled, ← hsum]
  exact ⟨constant, hconstant, hpolynomial _ rfl (by decide), hscaler _ rfl (by decide),
    hlinear _ (by decide)⟩

end Model

end RegressionScript
