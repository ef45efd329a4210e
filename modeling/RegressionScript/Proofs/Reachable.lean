import RegressionScript.Proofs.Calls
import RegressionScript.Proofs.Histories

/-!
# Programs that can be reached

What holds of every program that a history of commands leaves behind: its calls end and find their
functions, a merge stops at a name that both programs define and nowhere else, and functions that
are added later change nothing for those that are there.
-/

namespace RegressionScript.Program

set_option autoImplicit false

/-- Some history, over any number of slots, leaves the program in one of them. -/
def Reachable (p : Program) : Prop :=
  ∃ (cs : List (Command Nat)) (slot : Nat), Store.empty.runAll cs slot = p

variable {p q : Program}

theorem Reachable.wellDefined (h : p.Reachable) : p.WellDefined := by
  obtain ⟨cs, slot, rfl⟩ := h
  exact Store.runAll_wellDefined (fun _ => wellDefined_empty) cs slot

/-! ## Calls -/

/-- Everything called from a function, at any depth, stands before it. Every call ends, with the one
result that the rules allow, and no function is found missing. Evaluation is the call of the last
function. -/
theorem calls_end_at_earlier_functions (h : p.Reachable) :
    (∀ (k : Nat) (f : Function), p.functions[k]? = some f →
      (∀ c ∈ f.body.callees, ∃ (j : Nat) (g : Function),
        j < k ∧ p.functions[j]? = some g ∧ p.get? c = some g) ∧
      ∀ v : Value, p.callTrace f.name v =
          f.name :: chainTrace p.call p.callTrace f.body.callees v ∧
        ∀ c ∈ chainTrace p.call p.callTrace f.body.callees v, ∃ j, j < k ∧ p.names[j]? = some c) ∧
    (∀ name ∈ p.names, ∀ v : Value,
      p.CallEnds name v (p.call name v) ∧ (∀ r, p.CallEnds name v r → r = p.call name v) ∧
      ∀ missing, p.call name v ≠ .error (.undefined missing)) ∧
    (∀ f, p.entry? = some f → ∀ v : Value, p.eval v = p.call f.name v) ∧
    (p.functions = [] → ∀ v : Value, p.eval v = .error .emptyProgram) := by
  have hp := h.wellDefined
  refine ⟨?_, ?_, ?_, ?_⟩
  · intro k f hk
    constructor
    · intro c hc
      obtain ⟨j, g, hj, hg, rfl⟩ := hp.exists_callee hk c hc
      exact ⟨j, g, hj, hg, hp.get?_eq hg⟩
    · intro v
      exact ⟨hp.callTrace_eq hk v, fun c hc => hp.position_of_mem_chainTrace hk hc⟩
  · intro name hname v
    refine ⟨hp.callEnds_call hname v, ?_, hp.call_ne_undefined hname v⟩
    intro r hr
    exact (hp.call_eq_of_callEnds hr).symm
  · intro f hentry v
    exact hp.eval_eq_call hentry v
  · intro hempty v
    rw [eval, entry?, hempty]
    rfl

/-- An array, a number of it, and a function that passes its argument through both. -/
def shifted : Program :=
  ⟨[⟨"shift", .vector [.sub (.input 0) (.const 1.0)]⟩, ⟨"first", .scalar (.input 0)⟩,
    ⟨"f", .chain ["shift", "first"]⟩]⟩

theorem shifted_reachable : shifted.Reachable :=
  ⟨[.push 0 ⟨"shift", .vector [.sub (.input 0) (.const 1.0)]⟩, .push 0 ⟨"f", .chain ["first"]⟩,
    .push 1 ⟨"first", .scalar (.input 0)⟩, .extend 0 1, .push 0 ⟨"f", .chain ["shift", "first"]⟩],
    0, rfl⟩

theorem shifted_calls_end :
    shifted.Reachable ∧ "f" ∈ shifted.names ∧
      shifted.CallEnds "f" (.vector [3.0]) (.ok (.scalar 2.0)) ∧
      shifted.CallEnds "f" (.scalar 3.0) (.error (.scalarInput "shift")) := by
  obtain ⟨-, hcalls, -⟩ := calls_end_at_earlier_functions shifted_reachable
  have hname : "f" ∈ shifted.names := by decide
  exact ⟨shifted_reachable, hname, (hcalls "f" hname (.vector [3.0])).1,
    (hcalls "f" hname (.scalar 3.0)).1⟩

/-! ## Merging -/

theorem exists_first_redefined (p q : Program) :
    (∀ name ∈ q.names, name ∉ p.names) ∨
    ∃ before f after, q.functions = before ++ f :: after ∧ (∀ g ∈ before, g.name ∉ p.names) ∧
      f.name ∈ p.names := by
  cases hfind : q.functions.find? fun f => p.defines f.name with
  | none =>
    apply Or.inl
    intro name hname
    obtain ⟨f, hf, rfl⟩ := List.mem_map.mp hname
    have hnew := List.find?_eq_none.mp hfind f hf
    rwa [defines_iff] at hnew
  | some f =>
    obtain ⟨hdef, before, after, happ, hbefore⟩ := List.find?_eq_some_iff_append.mp hfind
    refine Or.inr ⟨before, f, after, happ, ?_, defines_iff.mp hdef⟩
    intro g hg
    have hnew := hbefore g hg
    rwa [Bool.not_eq_true', defines_eq_false_iff] at hnew

theorem extend_of_disjoint (hq : q.WellDefined) (hnew : ∀ name ∈ q.names, name ∉ p.names) :
    p.extend q = (⟨p.functions ++ q.functions⟩, none) := by
  have hfind : (q.functions.find? fun f => p.defines f.name) = none := by
    rw [List.find?_eq_none]
    intro f hf hdef
    exact hnew f.name (List.mem_map_of_mem hf) (defines_iff.mp hdef)
  rw [extend_eq p hq, hfind]

theorem extend_of_redefined {before after : List Function} {f : Function} (hq : q.WellDefined)
    (happ : q.functions = before ++ f :: after) (hbefore : ∀ g ∈ before, g.name ∉ p.names)
    (hf : f.name ∈ p.names) :
    p.extend q = (⟨p.functions ++ before⟩, some (.redefined f.name)) := by
  have hdef : p.defines f.name = true := defines_iff.mpr hf
  have hkept : ∀ g ∈ before, p.defines g.name = false := by
    intro g hg
    exact defines_eq_false_iff.mpr (hbefore g hg)
  have hfind : (q.functions.find? fun f => p.defines f.name) = some f := by
    rw [List.find?_eq_some_iff_append]
    exact ⟨hdef, before, after, happ, fun g hg => by rw [hkept g hg]; rfl⟩
  have htake : (q.functions.takeWhile fun f => !p.defines f.name) = before := by
    rw [happ, List.takeWhile_append_of_pos (fun g hg => by rw [hkept g hg]; rfl),
      List.takeWhile_cons_of_neg (by rw [hdef]; decide), List.append_nil]
  rw [extend_eq p hq, hfind, htake]

/-- A merge succeeds exactly if no name is defined in both programs, and it then puts one after the
other. Otherwise the error is the first name of the second program that is already there, and the
functions before it have been added. -/
theorem extend_stops_at_first_redefinition (p : Program) (hq : q.Reachable) :
    ((p.extend q).2 = none ↔ ∀ name ∈ q.names, name ∉ p.names) ∧
    ((p.extend q).2 = none → (p.extend q).1.functions = p.functions ++ q.functions) ∧
    (∀ e, (p.extend q).2 = some e → ∃ before f after, q.functions = before ++ f :: after ∧
      (∀ g ∈ before, g.name ∉ p.names) ∧ f.name ∈ p.names ∧ e = .redefined f.name ∧
      (p.extend q).1.functions = p.functions ++ before) ∧
    ∀ caller callee, (p.extend q).2 ≠ some (.callsUndefined caller callee) := by
  rcases exists_first_redefined p q with hnew | ⟨before, f, after, happ, hbefore, hf⟩
  · rw [extend_of_disjoint hq.wellDefined hnew]
    refine ⟨iff_of_true rfl hnew, fun _ => rfl, ?_, by simp⟩
    intro e he
    cases he
  · rw [extend_of_redefined hq.wellDefined happ hbefore hf]
    have hmem : f.name ∈ q.names := by
      apply List.mem_map_of_mem
      rw [happ]
      exact List.mem_append_right before List.mem_cons_self
    refine ⟨iff_of_false (by simp) fun hnew => hnew f.name hmem hf, by simp, ?_, by simp⟩
    intro e he
    exact ⟨before, f, after, happ, hbefore, hf, (Option.some.inj he).symm, rfl⟩

/-- A function that gives its argument back. -/
def identity (name : String) : Program := ⟨[⟨name, .chain []⟩]⟩

theorem identity_reachable (name : String) : (identity name).Reachable :=
  ⟨[.push 0 ⟨name, .chain []⟩], 0, rfl⟩

theorem extend_identity_stops :
    shifted.Reachable ∧ ((identity "first").extend shifted).2 = some (.redefined "first") ∧
      ∃ before, before <+: shifted.functions ∧ (∀ g ∈ before, g.name ∉ (identity "first").names) ∧
        ((identity "first").extend shifted).1.functions =
          (identity "first").functions ++ before := by
  have herror : ((identity "first").extend shifted).2 = some (.redefined "first") := rfl
  obtain ⟨-, -, hstop, -⟩ :=
    extend_stops_at_first_redefinition (identity "first") shifted_reachable
  obtain ⟨before, f, after, happ, hbefore, -, -, hkept⟩ := hstop _ herror
  exact ⟨shifted_reachable, herror, before, ⟨f :: after, happ.symm⟩, hbefore, hkept⟩

/-! ## Functions added later -/

/-- Neither a merge nor a push changes what functions compute that are there, and those that a merge
brings compute what they did before. -/
theorem call_kept_by_additions (hp : p.Reachable) :
    (∀ q : Program, q.Reachable → (∀ name ∈ q.names, name ∉ p.names) →
      ∃ r, p.extend q = (r, none) ∧
        (∀ name ∈ p.names, ∀ v : Value, r.call name v = p.call name v) ∧
        ∀ name ∈ q.names, ∀ v : Value, r.call name v = q.call name v) ∧
    ∀ (f : Function) (r : Program), p.push f = (r, none) →
      ∀ name ∈ p.names, ∀ v : Value, r.call name v = p.call name v := by
  have hpw := hp.wellDefined
  constructor
  · intro q hq hnew
    have hqw := hq.wellDefined
    have hext := extend_of_disjoint hqw hnew
    have hr : (mk (p.functions ++ q.functions)).WellDefined := by
      have := pushAll_wellDefined hpw q.functions
      rwa [← extend, hext] at this
    refine ⟨_, hext, ?_, ?_⟩
    · intro name hname v
      exact hpw.call_eq_of_subset hr (List.subset_append_left _ _) hname v
    · intro name hname v
      exact hqw.call_eq_of_subset hr (List.subset_append_right _ _) hname v
  · intro f r hpush name hname v
    have hr := push_wellDefined hpw hpush
    obtain ⟨-, -, rfl⟩ := push_eq_none_iff.mp hpush
    exact hpw.call_eq_of_subset hr (List.subset_append_left _ _) hname v

theorem shifted_kept_by_identity :
    shifted.Reachable ∧ (identity "g").Reachable ∧
      ∃ r, shifted.extend (identity "g") = (r, none) ∧
        r.call "f" (.vector [3.0]) = .ok (.scalar 2.0) ∧
        r.call "g" (.vector [3.0]) = .ok (.vector [3.0]) := by
  obtain ⟨hmerge, -⟩ := call_kept_by_additions shifted_reachable
  obtain ⟨r, hr, hold, hnew⟩ := hmerge (identity "g") (identity_reachable "g") (by decide)
  refine ⟨shifted_reachable, identity_reachable "g", r, hr, ?_, ?_⟩
  · rw [hold "f" (by decide)]
    rfl
  · rw [hnew "g" (by decide)]
    rfl

end RegressionScript.Program
