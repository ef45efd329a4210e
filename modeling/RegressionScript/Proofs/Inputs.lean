import RegressionScript.Expr.Eval
import RegressionScript.Proofs.WellDefined

/-!
# Inputs of expressions

An expression has a value exactly if all inputs are there that it reads. If one is missing, the
error is the first of them in the order in which the expression is written. The numbers that are
read make no difference to that. Whether one is missing can be told from the largest input alone.
-/

namespace RegressionScript

set_option autoImplicit false

namespace Expr

mutual

/-- The inputs that an expression reads, in the order in which it is written. -/
def inputs : Expr → List Nat
  | .const _ => []
  | .int _ => []
  | .input i => [i.toNat]
  | .pow b _ => b.inputs
  | .product fs => inputsAll fs
  | .sum ts => inputsAll ts
  | .sub l r => l.inputs ++ r.inputs
  | .div l r => l.inputs ++ r.inputs

def inputsAll : List Expr → List Nat
  | [] => []
  | e :: es => e.inputs ++ inputsAll es

end

theorem inputsAll_eq_flatMap (es : List Expr) : inputsAll es = es.flatMap inputs := by
  induction es with
  | nil => rfl
  | cons e es ih => rw [inputsAll, ih, List.flatMap_cons]

/-- Asks for inputs one after another. The first that an array of this length does not have is the
error. -/
def request (length : Nat) : List Nat → Except RunError Unit
  | [] => .ok ()
  | i :: is => if i < length then request length is else .error (.missingInput i length)

theorem request_eq_error_iff {length : Nat} {is : List Nat} {err : RunError} :
    request length is = .error err ↔
      ∃ i, is.find? (length ≤ ·) = some i ∧ err = .missingInput i length := by
  induction is with
  | nil => simp [request]
  | cons i is ih =>
    rw [request]
    by_cases hi : i < length
    · rw [if_pos hi, List.find?_cons_of_neg (by simpa using hi)]
      exact ih
    · rw [if_neg hi, List.find?_cons_of_pos (by simpa using hi)]
      constructor
      · intro h
        exact ⟨i, rfl, (Except.error.inj h).symm⟩
      · rintro ⟨j, hj, rfl⟩
        rw [Option.some.inj hj]

theorem request_append (length : Nat) (is js : List Nat) :
    request length (is ++ js) = request length is >>= fun _ => request length js := by
  induction is with
  | nil => rfl
  | cons i is ih =>
    rw [List.cons_append, request, request, ih]
    split <;> rfl

section Eval

variable (xs : List Float)

mutual

/-- An expression has a value exactly if all of its inputs are there. -/
theorem map_eval : ∀ e : Expr, (e.eval xs).map (fun _ => ()) = request xs.length e.inputs
  | .const v => rfl
  | .int v => rfl
  | .input i => by
    rw [eval, inputs, request]
    by_cases hi : i.toNat < xs.length
    · rw [if_pos hi, List.getElem?_eq_getElem hi]
      rfl
    · rw [if_neg hi, List.getElem?_eq_none (Nat.le_of_not_lt hi)]
      rfl
  | .pow b n => by
    rw [eval, inputs, ← map_eval b]
    cases b.eval xs <;> rfl
  | .product fs => map_evalProduct fs 1.0
  | .sum ts => map_evalSum ts 0.0
  | .sub l r => by
    rw [eval, inputs, request_append, ← map_eval l, ← map_eval r]
    cases l.eval xs with
    | error err => rfl
    | ok x => cases r.eval xs <;> rfl
  | .div l r => by
    rw [eval, inputs, request_append, ← map_eval l, ← map_eval r]
    cases l.eval xs with
    | error err => rfl
    | ok x => cases r.eval xs <;> rfl

-- What has been multiplied or added up so far plays no part, so that `acc` is arbitrary.
theorem map_evalProduct : ∀ (es : List Expr) (acc : Float),
    (evalProduct xs acc es).map (fun _ => ()) = request xs.length (inputsAll es)
  | [], acc => rfl
  | e :: es, acc => by
    rw [evalProduct, inputsAll, request_append, ← map_eval e]
    cases e.eval xs with
    | error err => rfl
    | ok x => exact map_evalProduct es (acc * x)

theorem map_evalSum : ∀ (es : List Expr) (acc : Float),
    (evalSum xs acc es).map (fun _ => ()) = request xs.length (inputsAll es)
  | [], acc => rfl
  | e :: es, acc => by
    rw [evalSum, inputsAll, request_append, ← map_eval e]
    cases e.eval xs with
    | error err => rfl
    | ok x => exact map_evalSum es (acc + x)

end

theorem map_evalAll (es : List Expr) :
    (evalAll xs es).map (fun _ => ()) = request xs.length (inputsAll es) := by
  induction es with
  | nil => rfl
  | cons e es ih =>
    rw [evalAll, inputsAll, request_append, ← map_eval xs e, ← ih]
    cases e.eval xs with
    | error err => rfl
    | ok x => cases evalAll xs es <;> rfl

theorem length_of_evalAll {es : List Expr} {ys : List Float} (h : evalAll xs es = .ok ys) :
    ys.length = es.length := by
  induction es generalizing ys with
  | nil =>
    cases h
    rfl
  | cons e es ih =>
    rw [evalAll] at h
    obtain ⟨x, -, h⟩ := bind_eq_ok_iff.mp h
    obtain ⟨zs, hzs, h⟩ := bind_eq_ok_iff.mp h
    cases h
    rw [List.length_cons, List.length_cons, ih hzs]

end Eval

theorem eval_eq_error_iff {xs : List Float} {err : RunError} {e : Expr} :
    e.eval xs = .error err ↔
      ∃ i, e.inputs.find? (xs.length ≤ ·) = some i ∧ err = .missingInput i xs.length := by
  rw [← request_eq_error_iff, ← map_eval, map_eq_error_iff]

theorem exists_eval_eq_ok {xs : List Float} {e : Expr} (h : ∀ i ∈ e.inputs, i < xs.length) :
    ∃ y, e.eval xs = .ok y := by
  cases heval : e.eval xs with
  | error err =>
    obtain ⟨i, hi, -⟩ := eval_eq_error_iff.mp heval
    have hmissing : xs.length ≤ i := by simpa using List.find?_some hi
    have hpresent := h i (List.mem_of_find?_eq_some hi)
    omega
  | ok y => exact ⟨y, rfl⟩

theorem error_of_eval {xs : List Float} {err : RunError} {e : Expr} (h : e.eval xs = .error err) :
    ∃ i, err = .missingInput i xs.length := by
  obtain ⟨i, -, hi⟩ := eval_eq_error_iff.mp h
  exact ⟨i, hi⟩

theorem error_of_evalAll {xs : List Float} {err : RunError} {es : List Expr}
    (h : evalAll xs es = .error err) : ∃ i, err = .missingInput i xs.length := by
  rw [← map_eq_error_iff, map_evalAll] at h
  obtain ⟨i, -, hi⟩ := request_eq_error_iff.mp h
  exact ⟨i, hi⟩

/-! ## The largest input -/

theorem max?_append (is js : List Nat) :
    (is ++ js).max? = Option.merge max is.max? js.max? := by
  induction is with
  | nil => simp
  | cons i is ih =>
    rw [List.cons_append, List.max?_cons, List.max?_cons, ih]
    cases is.max? <;> cases js.max? <;> simp [Nat.max_assoc]

mutual

/-- The largest index is the largest of the inputs that are read. -/
theorem maxInput?_eq_max? : ∀ e : Expr, e.maxInput? = e.inputs.max?
  | .const _ => rfl
  | .int _ => rfl
  | .input _ => rfl
  | .pow b _ => maxInput?_eq_max? b
  | .product fs => maxInputAll?_eq_max? fs
  | .sum ts => maxInputAll?_eq_max? ts
  | .sub l r => by
    rw [maxInput?, inputs, max?_append, maxInput?_eq_max? l, maxInput?_eq_max? r]
  | .div l r => by
    rw [maxInput?, inputs, max?_append, maxInput?_eq_max? l, maxInput?_eq_max? r]

theorem maxInputAll?_eq_max? : ∀ es : List Expr, maxInputAll? es = (inputsAll es).max?
  | [] => rfl
  | e :: es => by
    rw [maxInputAll?, inputsAll, max?_append, maxInput?_eq_max? e, maxInputAll?_eq_max? es]

end

theorem exists_max?_ge_iff {is : List Nat} {length : Nat} :
    (∃ m, is.max? = some m ∧ length ≤ m) ↔ ∃ i ∈ is, length ≤ i := by
  constructor
  · rintro ⟨m, hm, hle⟩
    exact ⟨m, (List.max?_eq_some_iff.mp hm).1, hle⟩
  · rintro ⟨i, hi, hle⟩
    obtain ⟨m, hm⟩ := Option.isSome_iff_exists.mp (List.isSome_max?_of_mem hi)
    exact ⟨m, hm, hle.trans ((List.max?_eq_some_iff.mp hm).2 i hi)⟩

theorem exists_find?_ge_iff {is : List Nat} {length : Nat} :
    (∃ i, is.find? (length ≤ ·) = some i) ↔ ∃ i ∈ is, length ≤ i := by
  rw [← Option.isSome_iff_exists, List.find?_isSome]
  simp

/-- An expression has no value exactly if its largest input is missing. The error is the first input
that is missing, which need not be the largest. -/
theorem eval_fails_iff_largest_missing (e : Expr) (xs : List Float) :
    ((∃ err, e.eval xs = .error err) ↔ ∃ m, e.maxInput? = some m ∧ xs.length ≤ m) ∧
      ∀ err, e.eval xs = .error err ↔
        ∃ i, e.inputs.find? (xs.length ≤ ·) = some i ∧ err = .missingInput i xs.length := by
  refine ⟨?_, fun err => eval_eq_error_iff⟩
  rw [maxInput?_eq_max?, exists_max?_ge_iff, ← exists_find?_ge_iff]
  constructor
  · rintro ⟨err, h⟩
    obtain ⟨i, hi, -⟩ := eval_eq_error_iff.mp h
    exact ⟨i, hi⟩
  · rintro ⟨i, hi⟩
    exact ⟨_, eval_eq_error_iff.mpr ⟨i, hi, rfl⟩⟩

example :
    let e := sum [input 1, div (input 5) (input 9)]
    e.maxInput? = some 9 ∧ e.eval [0.5, 2.0] = .error (.missingInput 5 2) := ⟨rfl, rfl⟩

end Expr

end RegressionScript
