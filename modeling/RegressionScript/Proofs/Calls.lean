import RegressionScript.Program.Run
import RegressionScript.Proofs.Inputs

/-!
# Calls in well-defined programs

A function calls functions at earlier positions only. So the depth that a run is given never shows:
a call unfolds like a plain recursive definition, it ends, and it finds every function that it
needs. What it gives depends on the functions below it and on nothing else in the program.
-/

namespace RegressionScript

set_option autoImplicit false

/-! ## What a function asks of the functions that it calls -/

namespace Function

variable {call call' : String → Value → Except RunError Value} {f : Function}

theorem apply_chain {callees : List String} (hf : f.body = .chain callees) (v : Value) :
    f.apply call v = callees.foldlM (fun v callee => call callee v) v := by
  simp only [apply, hf]

theorem apply_number (hf : ∀ callees, f.body ≠ .chain callees) (x : Float) :
    f.apply call (.scalar x) = .error (.scalarInput f.name) := by
  cases hbody : f.body with
  | vector es => simp only [apply, hbody]
  | scalar e => simp only [apply, hbody]
  | chain callees => exact absurd hbody (hf callees)

theorem foldlM_call_congr {callees : List String}
    (h : ∀ c ∈ callees, ∀ v, call c v = call' c v) (v : Value) :
    callees.foldlM (fun v callee => call callee v) v =
      callees.foldlM (fun v callee => call' callee v) v := by
  induction callees generalizing v with
  | nil => rfl
  | cons c cs ih =>
    rw [List.forall_mem_cons] at h
    rw [List.foldlM_cons, List.foldlM_cons, h.1 v]
    exact congrArg _ (funext (ih h.2))

theorem apply_congr (h : ∀ c ∈ f.body.callees, ∀ v, call c v = call' c v) (v : Value) :
    f.apply call v = f.apply call' v := by
  cases hf : f.body with
  | vector es => cases v <;> simp only [apply, hf]
  | scalar e => cases v <;> simp only [apply, hf]
  | chain callees =>
    rw [hf] at h
    rw [apply_chain hf, apply_chain hf]
    exact foldlM_call_congr h v

theorem error_of_foldlM_call {callees : List String} {v : Value} {err : RunError}
    (h : callees.foldlM (fun v callee => call callee v) v = .error err) :
    ∃ c ∈ callees, ∃ w, call c w = .error err := by
  induction callees generalizing v with
  | nil => cases h
  | cons c cs ih =>
    rw [List.foldlM_cons] at h
    rcases bind_eq_error_iff.mp h with h | ⟨w, -, h⟩
    · exact ⟨c, List.mem_cons_self, v, h⟩
    · obtain ⟨d, hd, hcall⟩ := ih h
      exact ⟨d, List.mem_cons_of_mem c hd, hcall⟩

/-- An error comes from a call, or it is one of a leaf: its argument is a number, or too short. -/
theorem error_of_apply {v : Value} {err : RunError} (h : f.apply call v = .error err) :
    (∃ c ∈ f.body.callees, ∃ w, call c w = .error err) ∨ err = .scalarInput f.name ∨
      ∃ i n, err = .missingInput i n := by
  cases hf : f.body with
  | vector es =>
    cases v with
    | scalar x =>
      simp only [apply, hf] at h
      exact Or.inr (Or.inl (Except.error.inj h).symm)
    | vector xs =>
      simp only [apply, hf, map_eq_error_iff] at h
      obtain ⟨i, hi⟩ := Expr.error_of_evalAll h
      exact Or.inr (Or.inr ⟨i, _, hi⟩)
  | scalar e =>
    cases v with
    | scalar x =>
      simp only [apply, hf] at h
      exact Or.inr (Or.inl (Except.error.inj h).symm)
    | vector xs =>
      simp only [apply, hf, map_eq_error_iff] at h
      obtain ⟨i, hi⟩ := Expr.error_of_eval h
      exact Or.inr (Or.inr ⟨i, _, hi⟩)
  | chain callees =>
    rw [apply_chain hf] at h
    exact Or.inl (error_of_foldlM_call h)

end Function

namespace Program

variable {p q : Program} {f : Function}

/-! ## Names and positions -/

theorem get?_eq_of_nodup (h : p.names.Nodup) (hf : f ∈ p.functions) : p.get? f.name = some f := by
  obtain ⟨fs⟩ := p
  unfold get?
  induction fs with
  | nil => cases hf
  | cons g gs ih =>
    rw [names_mk, List.map_cons, List.nodup_cons] at h
    rw [List.find?_cons]
    rcases List.mem_cons.mp hf with rfl | hf
    · simp
    · have hne : (g.name == f.name) = false := by
        rw [beq_eq_false_iff_ne]
        intro heq
        exact h.1 (heq ▸ List.mem_map_of_mem hf)
      rw [hne]
      exact ih h.2 hf

theorem name_of_get? {name : String} (h : p.get? name = some f) : f.name = name := by
  simpa using List.find?_some h

theorem exists_position {name : String} (h : p.get? name = some f) :
    ∃ k : Nat, p.functions[k]? = some f :=
  List.getElem?_of_mem (List.mem_of_find?_eq_some h)

theorem exists_get? {name : String} (h : name ∈ p.names) : ∃ f, p.get? name = some f := by
  rwa [← defines_iff, defines, Option.isSome_iff_exists] at h

namespace WellDefined

variable {k : Nat} {name : String}

theorem get?_eq (h : p.WellDefined) (hk : p.functions[k]? = some f) : p.get? f.name = some f :=
  get?_eq_of_nodup h.distinct (List.mem_of_getElem? hk)

theorem exists_callee (h : p.WellDefined) (hk : p.functions[k]? = some f) :
    ∀ c ∈ f.body.callees, ∃ (j : Nat) (g : Function),
      j < k ∧ p.functions[j]? = some g ∧ g.name = c := by
  intro c hc
  obtain ⟨j, hj, hname⟩ := h.earlier k f hk c hc
  rw [names, List.getElem?_map, Option.map_eq_some_iff] at hname
  obtain ⟨g, hg, rfl⟩ := hname
  exact ⟨j, g, hj, hg, rfl⟩

/-- What holds of a function if it holds of all that the function calls, holds of every function. -/
theorem induction_on_calls (h : p.WellDefined) {motive : String → Prop}
    (step : ∀ name f, p.get? name = some f → (∀ c ∈ f.body.callees, motive c) → motive name)
    (hname : name ∈ p.names) : motive name := by
  have hposition : ∀ (k : Nat) (f : Function), p.functions[k]? = some f → motive f.name := by
    intro k
    induction k using Nat.strongRecOn with
    | ind k ih =>
      intro f hk
      apply step f.name f (h.get?_eq hk)
      intro c hc
      obtain ⟨j, g, hj, hg, rfl⟩ := h.exists_callee hk c hc
      exact ih j hj g hg
  obtain ⟨f, hf⟩ := exists_get? hname
  obtain ⟨k, hk⟩ := exists_position hf
  rw [← name_of_get? hf]
  exact hposition k f hk

/-! ## Depth -/

-- Here the induction is on the position itself: the calls made at `k` need no depth beyond `k`.
theorem callWithin_eq (h : p.WellDefined) (hk : p.functions[k]? = some f) {d e : Nat} (hd : k < d)
    (he : k < e) (v : Value) : p.callWithin d f.name v = p.callWithin e f.name v := by
  induction k using Nat.strongRecOn generalizing f d e v with
  | ind k ih =>
    obtain ⟨d, rfl⟩ : ∃ m, d = m + 1 := ⟨d - 1, by omega⟩
    obtain ⟨e, rfl⟩ : ∃ m, e = m + 1 := ⟨e - 1, by omega⟩
    simp only [callWithin, h.get?_eq hk]
    apply Function.apply_congr
    intro c hc w
    obtain ⟨j, g, hj, hg, rfl⟩ := h.exists_callee hk c hc
    exact ih j hj hg (by omega) (by omega) w

/-- A call is the application of its function, whose calls are calls again. -/
theorem call_eq_apply (h : p.WellDefined) (hf : p.get? name = some f) (v : Value) :
    p.call name v = f.apply p.call v := by
  obtain ⟨k, hk⟩ := exists_position hf
  have hlt : k < p.functions.length := (List.getElem?_eq_some_iff.mp hk).1
  rw [← name_of_get? hf, call, h.callWithin_eq hk hlt (Nat.lt_succ_of_lt hlt), callWithin,
    h.get?_eq hk]
  rfl

theorem eval_eq_call (h : p.WellDefined) (hentry : p.entry? = some f) (v : Value) :
    p.eval v = p.call f.name v := by
  have hf := get?_eq_of_nodup h.distinct (List.mem_of_getLast? hentry)
  rw [eval, hentry, h.call_eq_apply hf]

theorem call_ne_undefined (h : p.WellDefined) (hname : name ∈ p.names) (v : Value)
    (missing : String) : p.call name v ≠ .error (.undefined missing) := by
  apply h.induction_on_calls
    (motive := fun name => ∀ v, p.call name v ≠ .error (.undefined missing)) _ hname
  intro name f hf ih v herr
  rw [h.call_eq_apply hf] at herr
  rcases Function.error_of_apply herr with ⟨c, hc, w, hcall⟩ | hleaf | ⟨i, n, hleaf⟩
  · exact ih c hc w hcall
  · cases hleaf
  · cases hleaf

/-- A function computes the same in every program that holds it and what it calls. -/
theorem call_eq_of_subset (h : p.WellDefined) (hq : q.WellDefined)
    (hsub : p.functions ⊆ q.functions) (hname : name ∈ p.names) (v : Value) :
    q.call name v = p.call name v := by
  apply h.induction_on_calls (motive := fun name => ∀ v, q.call name v = p.call name v) _ hname
  intro name f hf ih v
  have hfq : q.get? name = some f := by
    rw [← name_of_get? hf]
    exact get?_eq_of_nodup hq.distinct (hsub (List.mem_of_find?_eq_some hf))
  rw [h.call_eq_apply hf, hq.call_eq_apply hfq]
  exact Function.apply_congr ih v

end WellDefined

/-! ## Calls that end -/

mutual

/-- How a call ends, by rules without a bound on the depth. A call that went on forever would have
no derivation. -/
inductive CallEnds (p : Program) : String → Value → Except RunError Value → Prop where
  | undefined {name : String} {v : Value} : p.get? name = none →
    CallEnds p name v (.error (.undefined name))
  | refused {name : String} {f : Function} {x : Float} : p.get? name = some f →
    (∀ callees, f.body ≠ .chain callees) → CallEnds p name (.scalar x) (.error (.scalarInput name))
  | vector {name : String} {f : Function} {es : List Expr} {xs : List Float} :
    p.get? name = some f → f.body = .vector es →
    CallEnds p name (.vector xs) ((Expr.evalAll xs es).map .vector)
  | scalar {name : String} {f : Function} {e : Expr} {xs : List Float} :
    p.get? name = some f → f.body = .scalar e →
    CallEnds p name (.vector xs) ((e.eval xs).map .scalar)
  | chain {name : String} {f : Function} {callees : List String} {v : Value}
    {r : Except RunError Value} : p.get? name = some f → f.body = .chain callees →
    ChainEnds p callees v r → CallEnds p name v r

inductive ChainEnds (p : Program) : List String → Value → Except RunError Value → Prop where
  | done {v : Value} : ChainEnds p [] v (.ok v)
  | failed {c : String} {cs : List String} {v : Value} {e : RunError} :
    CallEnds p c v (.error e) → ChainEnds p (c :: cs) v (.error e)
  | next {c : String} {cs : List String} {v w : Value} {r : Except RunError Value} :
    CallEnds p c v (.ok w) → ChainEnds p cs w r → ChainEnds p (c :: cs) v r

end

theorem chainEnds_foldlM {call : String → Value → Except RunError Value} {callees : List String}
    (h : ∀ c ∈ callees, ∀ v, p.CallEnds c v (call c v)) (v : Value) :
    p.ChainEnds callees v (callees.foldlM (fun v callee => call callee v) v) := by
  induction callees generalizing v with
  | nil => exact .done
  | cons c cs ih =>
    rw [List.forall_mem_cons] at h
    have hc := h.1 v
    rw [List.foldlM_cons]
    cases hcall : call c v with
    | error e =>
      rw [hcall] at hc
      exact .failed hc
    | ok w =>
      rw [hcall] at hc
      exact .next hc (ih h.2 w)

theorem callEnds_apply {name : String} {call : String → Value → Except RunError Value}
    (hf : p.get? name = some f) (h : ∀ c ∈ f.body.callees, ∀ v, p.CallEnds c v (call c v))
    (v : Value) : p.CallEnds name v (f.apply call v) := by
  cases hbody : f.body with
  | chain callees =>
    rw [hbody] at h
    rw [Function.apply_chain hbody]
    exact .chain hf hbody (chainEnds_foldlM h v)
  | vector es =>
    cases v with
    | scalar x =>
      simp only [Function.apply, hbody, name_of_get? hf]
      exact .refused hf (by simp [hbody])
    | vector xs =>
      simp only [Function.apply, hbody]
      exact .vector hf hbody
  | scalar e =>
    cases v with
    | scalar x =>
      simp only [Function.apply, hbody, name_of_get? hf]
      exact .refused hf (by simp [hbody])
    | vector xs =>
      simp only [Function.apply, hbody]
      exact .scalar hf hbody

theorem call_of_get?_eq_none {name : String} (hf : p.get? name = none) (v : Value) :
    p.call name v = .error (.undefined name) := by
  unfold call
  cases p.functions.length with
  | zero => rfl
  | succ depth => rw [callWithin, hf]

namespace WellDefined

theorem callEnds_call (h : p.WellDefined) {name : String} (hname : name ∈ p.names) (v : Value) :
    p.CallEnds name v (p.call name v) := by
  apply h.induction_on_calls (motive := fun name => ∀ v, p.CallEnds name v (p.call name v)) _ hname
  intro name f hf ih v
  rw [h.call_eq_apply hf]
  exact callEnds_apply hf ih v

mutual

theorem call_eq_of_callEnds (h : p.WellDefined) : ∀ {name : String} {v : Value}
    {r : Except RunError Value}, p.CallEnds name v r → p.call name v = r
  | _, v, _, .undefined hf => call_of_get?_eq_none hf v
  | _, _, _, .refused hf hbody => by
    rw [h.call_eq_apply hf, Function.apply_number hbody, name_of_get? hf]
  | _, _, _, .vector hf hbody => by
    rw [h.call_eq_apply hf]
    simp only [Function.apply, hbody]
  | _, _, _, .scalar hf hbody => by
    rw [h.call_eq_apply hf]
    simp only [Function.apply, hbody]
  | _, _, _, .chain hf hbody hchain => by
    rw [h.call_eq_apply hf, Function.apply_chain hbody]
    exact foldlM_call_eq_of_chainEnds h hchain

theorem foldlM_call_eq_of_chainEnds (h : p.WellDefined) : ∀ {callees : List String} {v : Value}
    {r : Except RunError Value}, p.ChainEnds callees v r →
      callees.foldlM (fun v callee => p.call callee v) v = r
  | _, _, _, .done => rfl
  | _, _, _, .failed hc => by
    rw [List.foldlM_cons, call_eq_of_callEnds h hc]
    rfl
  | _, _, _, .next hc hrest => by
    rw [List.foldlM_cons, call_eq_of_callEnds h hc]
    exact foldlM_call_eq_of_chainEnds h hrest

end

end WellDefined

/-! ## The functions entered -/

section Trace

variable {call call' : String → Value → Except RunError Value}
variable {trace trace' : String → Value → List String} {callees : List String}

theorem chainTrace_congr (hcall : ∀ c ∈ callees, ∀ v, call c v = call' c v)
    (htrace : ∀ c ∈ callees, ∀ v, trace c v = trace' c v) (v : Value) :
    chainTrace call trace callees v = chainTrace call' trace' callees v := by
  induction callees generalizing v with
  | nil => rfl
  | cons c cs ih =>
    rw [List.forall_mem_cons] at hcall htrace
    rw [chainTrace, chainTrace, hcall.1 v, htrace.1 v]
    cases call' c v with
    | error e => rfl
    | ok w => simp only [ih hcall.2 htrace.2 w]

theorem exists_of_mem_chainTrace {v : Value} {n : String}
    (h : n ∈ chainTrace call trace callees v) : ∃ c ∈ callees, ∃ w, n ∈ trace c w := by
  induction callees generalizing v with
  | nil => cases h
  | cons c cs ih =>
    rw [chainTrace] at h
    rcases List.mem_append.mp h with h | h
    · exact ⟨c, List.mem_cons_self, v, h⟩
    · split at h
      · obtain ⟨d, hd, hn⟩ := ih h
        exact ⟨d, List.mem_cons_of_mem c hd, hn⟩
      · cases h

end Trace

namespace WellDefined

variable {k : Nat}

theorem traceWithin_eq (h : p.WellDefined) (hk : p.functions[k]? = some f) {d e : Nat} (hd : k < d)
    (he : k < e) (v : Value) : p.traceWithin d f.name v = p.traceWithin e f.name v := by
  induction k using Nat.strongRecOn generalizing f d e v with
  | ind k ih =>
    obtain ⟨d, rfl⟩ : ∃ m, d = m + 1 := ⟨d - 1, by omega⟩
    obtain ⟨e, rfl⟩ : ∃ m, e = m + 1 := ⟨e - 1, by omega⟩
    simp only [traceWithin, h.get?_eq hk, applyTrace]
    apply congrArg (List.cons f.name)
    apply chainTrace_congr
    · intro c hc w
      obtain ⟨j, g, hj, hg, rfl⟩ := h.exists_callee hk c hc
      exact h.callWithin_eq hg (by omega) (by omega) w
    · intro c hc w
      obtain ⟨j, g, hj, hg, rfl⟩ := h.exists_callee hk c hc
      exact ih j hj hg (by omega) (by omega) w

theorem callTrace_eq (h : p.WellDefined) (hk : p.functions[k]? = some f) (v : Value) :
    p.callTrace f.name v = f.name :: chainTrace p.call p.callTrace f.body.callees v := by
  have hlt : k < p.functions.length := (List.getElem?_eq_some_iff.mp hk).1
  rw [callTrace, h.traceWithin_eq hk hlt (Nat.lt_succ_of_lt hlt), traceWithin, h.get?_eq hk]
  rfl

theorem position_of_mem_chainTrace (h : p.WellDefined) (hk : p.functions[k]? = some f)
    {v : Value} {n : String} (hn : n ∈ chainTrace p.call p.callTrace f.body.callees v) :
    ∃ j, j < k ∧ p.names[j]? = some n := by
  induction k using Nat.strongRecOn generalizing f v with
  | ind k ih =>
    obtain ⟨c, hc, w, hn⟩ := exists_of_mem_chainTrace hn
    obtain ⟨j, g, hj, hg, rfl⟩ := h.exists_callee hk c hc
    rw [h.callTrace_eq hg] at hn
    rcases List.mem_cons.mp hn with rfl | hn
    · exact ⟨j, hj, by rw [names, List.getElem?_map, hg, Option.map_some]⟩
    · obtain ⟨i, hi, hname⟩ := ih j hj hg hn
      exact ⟨i, by omega, hname⟩

end WellDefined

end Program

end RegressionScript
