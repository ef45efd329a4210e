import RegressionScript.Proofs.Reachable

/-!
# Shapes of values

Whether a run fails, with which error, and how long its result is, follows from the shape of the
argument. Here programs are run on shapes alone: an expression only asks for the inputs that it
reads, and a function hands a shape on. Runs on values show the same at every step, so that the
numbers in the argument decide nothing but numbers.
-/

namespace RegressionScript

set_option autoImplicit false

/-- A number, or an array of some length. -/
inductive Shape where
  | scalar
  | vector (length : Nat)
deriving DecidableEq

def Value.shape : Value → Shape
  | .scalar _ => .scalar
  | .vector xs => .vector xs.length

/-! ## Functions -/

namespace Function

/-- A function on shapes, given what the functions that it calls do with shapes. -/
def applyShape (call : String → Shape → Except RunError Shape) (f : Function) (s : Shape) :
    Except RunError Shape :=
  match f.body, s with
  | .vector es, .vector n => (Expr.request n (Expr.inputsAll es)).map fun _ => .vector es.length
  | .scalar e, .vector n => (Expr.request n e.inputs).map fun _ => .scalar
  | .chain callees, s => callees.foldlM (fun s callee => call callee s) s
  | _, .scalar => .error (.scalarInput f.name)

variable {call : String → Value → Except RunError Value}
variable {callShape : String → Shape → Except RunError Shape}

theorem map_shape_foldlM {callees : List String}
    (h : ∀ c ∈ callees, ∀ v, (call c v).map Value.shape = callShape c v.shape) (v : Value) :
    (callees.foldlM (fun v callee => call callee v) v).map Value.shape =
      callees.foldlM (fun s callee => callShape callee s) v.shape := by
  induction callees generalizing v with
  | nil => rfl
  | cons c cs ih =>
    rw [List.forall_mem_cons] at h
    rw [List.foldlM_cons, List.foldlM_cons, ← h.1 v]
    cases call c v with
    | error err => rfl
    | ok w => exact ih h.2 w

theorem map_shape_apply {f : Function}
    (h : ∀ c ∈ f.body.callees, ∀ v, (call c v).map Value.shape = callShape c v.shape) (v : Value) :
    (f.apply call v).map Value.shape = f.applyShape callShape v.shape := by
  obtain ⟨name, body⟩ := f
  cases body with
  | chain callees => exact map_shape_foldlM h v
  | vector es =>
    cases v with
    | scalar x => rfl
    | vector xs =>
      simp only [apply, applyShape, Value.shape, ← Expr.map_evalAll]
      cases hes : Expr.evalAll xs es with
      | error err => rfl
      | ok ys =>
        rw [← Expr.length_of_evalAll xs hes]
        rfl
  | scalar e =>
    cases v with
    | scalar x => rfl
    | vector xs =>
      simp only [apply, applyShape, Value.shape, ← Expr.map_eval]
      cases e.eval xs <;> rfl

end Function

/-! ## Programs -/

namespace Program

def callShapeWithin (p : Program) : Nat → String → Shape → Except RunError Shape
  | 0, name, _ => .error (.undefined name)
  | depth + 1, name, s =>
    match p.get? name with
    | none => .error (.undefined name)
    | some f => f.applyShape (p.callShapeWithin depth) s

def callShape (p : Program) (name : String) (s : Shape) : Except RunError Shape :=
  p.callShapeWithin p.functions.length name s

def evalShape (p : Program) (s : Shape) : Except RunError Shape :=
  match p.entry? with
  | none => .error .emptyProgram
  | some f => f.applyShape p.callShape s

variable (p : Program)

theorem map_shape_callWithin (depth : Nat) (name : String) (v : Value) :
    (p.callWithin depth name v).map Value.shape = p.callShapeWithin depth name v.shape := by
  -- both runs are cut off at the same depth and look up the same functions on the way
  induction depth generalizing name v with
  | zero => rfl
  | succ depth ih =>
    rw [callWithin, callShapeWithin]
    cases p.get? name with
    | none => rfl
    | some f => exact Function.map_shape_apply (fun c _ w => ih c w) v

theorem map_shape_call (name : String) (v : Value) :
    (p.call name v).map Value.shape = p.callShape name v.shape :=
  map_shape_callWithin p p.functions.length name v

theorem map_shape_eval (v : Value) : (p.eval v).map Value.shape = p.evalShape v.shape := by
  rw [eval, evalShape]
  cases p.entry? with
  | none => rfl
  | some f => exact Function.map_shape_apply (fun c _ w => map_shape_call p c w) v

/-- Two arguments of one shape, whatever their numbers, give the same error or results of one shape,
for the program and for each of its functions. -/
theorem outcome_follows_shape {v w : Value} (h : v.shape = w.shape) :
    (p.eval v).map Value.shape = (p.eval w).map Value.shape ∧
    ∀ name : String, (p.call name v).map Value.shape = (p.call name w).map Value.shape := by
  constructor
  · rw [map_shape_eval, map_shape_eval, h]
  · intro name
    rw [map_shape_call, map_shape_call, h]

/-- An argument that is not a number, beside one that is. -/
theorem shifted_outcome_follows_shape :
    (Value.vector [0.0 / 0.0]).shape = (Value.vector [3.0]).shape ∧
    (shifted.eval (.vector [0.0 / 0.0])).map Value.shape = .ok .scalar ∧
    (shifted.call "shift" (.vector [0.0 / 0.0])).map Value.shape = .ok (.vector 1) := by
  have hshape : (Value.vector [0.0 / 0.0]).shape = (Value.vector [3.0]).shape := rfl
  obtain ⟨heval, hcall⟩ := outcome_follows_shape shifted hshape
  refine ⟨hshape, ?_, ?_⟩
  · rw [heval]
    rfl
  · rw [hcall "shift"]
    rfl

end Program

end RegressionScript
