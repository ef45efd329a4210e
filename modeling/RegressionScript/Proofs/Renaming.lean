import Mathlib.Data.List.Forall2
import RegressionScript.Proofs.Calls
import RegressionScript.Proofs.Emission

/-!
# Programs under other names

Compilation puts names together and compares them, and a call looks them up; neither looks inside
one. So where names correspond one to one, a model compiles under two corresponding names to
programs that correspond function by function and run alike. Names that begin with one identifier
correspond in this way to those that begin with another and go on alike.
-/

namespace RegressionScript

set_option autoImplicit false

/-! ## Results that correspond -/

section Lists

variable {α β : Type} {S : α → β → Prop} {xs : List α} {ys : List β}

theorem exists_of_forall₂_of_mem (h : List.Forall₂ S xs ys) {x : α} (hx : x ∈ xs) :
    ∃ y ∈ ys, S x y := by
  induction h with
  | nil => cases hx
  | @cons a b as bs hab _ ih =>
    rcases List.mem_cons.mp hx with rfl | hx
    · exact ⟨b, List.mem_cons_self, hab⟩
    · obtain ⟨y, hy, hxy⟩ := ih hx
      exact ⟨y, List.mem_cons_of_mem b hy, hxy⟩

theorem getElem?_of_forall₂ (h : List.Forall₂ S xs ys) (i : Nat) :
    (xs[i]? = none ∧ ys[i]? = none) ∨ ∃ x y, xs[i]? = some x ∧ ys[i]? = some y ∧ S x y := by
  induction h generalizing i with
  | nil => exact Or.inl ⟨rfl, rfl⟩
  | @cons x y xs ys hxy _ ih =>
    cases i with
    | zero => exact Or.inr ⟨x, y, rfl, rfl, hxy⟩
    | succ i => exact ih i

theorem find?_of_forall₂ {P : α → Bool} {Q : β → Bool} (h : List.Forall₂ S xs ys)
    (hPQ : ∀ x y, S x y → P x = Q y) :
    (xs.find? P = none ∧ ys.find? Q = none) ∨
      ∃ x y, xs.find? P = some x ∧ ys.find? Q = some y ∧ S x y := by
  induction h with
  | nil => exact Or.inl ⟨rfl, rfl⟩
  | @cons x y xs ys hxy _ ih =>
    rw [List.find?_cons, List.find?_cons, hPQ x y hxy]
    cases Q y with
    | true => exact Or.inr ⟨x, y, rfl, rfl, hxy⟩
    | false => exact ih

end Lists

section Alike

variable {ε α β γ δ : Type}

/-- Two values that correspond, or two errors that do. -/
inductive Alike (E : ε → ε → Prop) (A : α → β → Prop) : Except ε α → Except ε β → Prop where
  | ok {a : α} {b : β} : A a b → Alike E A (.ok a) (.ok b)
  | error {d e : ε} : E d e → Alike E A (.error d) (.error e)

namespace Alike

variable {E : ε → ε → Prop} {A : α → β → Prop} {B : γ → δ → Prop}

theorem exists_ok_or_error {x : Except ε α} {y : Except ε β} (h : Alike E A x y) :
    (∃ a b, x = .ok a ∧ y = .ok b ∧ A a b) ∨ ∃ d e, x = .error d ∧ y = .error e ∧ E d e := by
  cases h with
  | ok hab => exact Or.inl ⟨_, _, rfl, rfl, hab⟩
  | error hde => exact Or.inr ⟨_, _, rfl, rfl, hde⟩

theorem bind {x : Except ε α} {y : Except ε β} {f : α → Except ε γ} {g : β → Except ε δ}
    (h : Alike E A x y)
    (hfg : ∀ a b, x = .ok a → y = .ok b → A a b → Alike E B (f a) (g b)) :
    Alike E B (x >>= f) (y >>= g) := by
  cases h with
  | ok hab => exact hfg _ _ rfl rfl hab
  | error hde => exact .error hde

theorem foldlM {f : α → γ → Except ε α} {g : β → δ → Except ε β} {xs : List γ} {ys : List δ}
    (h : List.Forall₂ B xs ys)
    (hfg : ∀ x ∈ xs, ∀ y ∈ ys, B x y → ∀ a b, A a b → Alike E A (f a x) (g b y)) {a : α} {b : β}
    (hab : A a b) : Alike E A (xs.foldlM f a) (ys.foldlM g b) := by
  induction h generalizing a b with
  | nil => exact .ok hab
  | cons hxy _ ih =>
    rw [List.foldlM_cons, List.foldlM_cons]
    apply (hfg _ List.mem_cons_self _ List.mem_cons_self hxy a b hab).bind
    intro c d _ _ hcd
    apply ih _ hcd
    intro x hx y hy
    exact hfg x (List.mem_cons_of_mem _ hx) y (List.mem_cons_of_mem _ hy)

theorem failing_eq {xs : List (Except ε α)} {ys : List (Except ε β)}
    (h : List.Forall₂ (Alike E A) xs ys) : failing xs = failing ys := by
  unfold failing
  rw [h.length_eq]
  apply List.filter_congr
  intro i _
  rcases getElem?_of_forall₂ h i with ⟨hx, hy⟩ | ⟨x, y, hx, hy, hxy⟩
  · rw [hx, hy]
    rfl
  · rw [hx, hy]
    cases hxy <;> rfl

/-- Results that correspond one by one fail at the same steps, so that the same one is reported. -/
theorem collect {xs : List (Except ε α)} {ys : List (Except ε β)}
    (h : List.Forall₂ (Alike E A) xs ys) (reporting : Reporting) :
    Alike E (List.Forall₂ A) (reporting.collect xs) (reporting.collect ys) := by
  by_cases hnone : failing xs = []
  · obtain ⟨as, rfl⟩ := exists_map_ok_of_failing_eq_nil hnone
    obtain ⟨bs, rfl⟩ := exists_map_ok_of_failing_eq_nil (failing_eq h ▸ hnone)
    rw [Reporting.collect_map_ok, Reporting.collect_map_ok]
    rw [List.forall₂_map_left_iff, List.forall₂_map_right_iff] at h
    refine .ok (h.imp ?_)
    rintro a b (hab | _)
    exact hab
  · obtain ⟨d, hd⟩ := mem_failing_iff.mp (reporting.pick_mem [] hnone)
    rcases getElem?_of_forall₂ h (reporting.pick [] (failing xs)) with ⟨hx, -⟩ | ⟨x, y, hx, hy, hxy⟩
    · rw [hx] at hd
      cases hd
    · obtain rfl := Option.some.inj (hx.symm.trans hd)
      cases hxy with
      | error hde =>
        rw [Reporting.collect, Reporting.collect, ← failing_eq h, hx, hy]
        exact .error hde

end Alike

end Alike

/-! ## Programs that correspond -/

section Relations

variable (R : String → String → Prop)

/-- Each name corresponds to one at most, and names of steps correspond if their pipelines do. -/
structure Name.Correspondence : Prop where
  unique : Relator.BiUnique R
  ofStep : ∀ {a b : String} (step : String), R a b → R (Name.ofStep a step) (Name.ofStep b step)

inductive Body.Renamed : Body → Body → Prop where
  | vector (es : List Expr) : Body.Renamed (.vector es) (.vector es)
  | scalar (e : Expr) : Body.Renamed (.scalar e) (.scalar e)
  | chain {cs ds : List String} : List.Forall₂ R cs ds → Body.Renamed (.chain cs) (.chain ds)

/-- The same function, except that its name and those of its callees are replaced by others. -/
structure Function.Renamed (f g : Function) : Prop where
  name : R f.name g.name
  body : Body.Renamed R f.body g.body

def Program.Renamed (p q : Program) : Prop :=
  List.Forall₂ (Function.Renamed R) p.functions q.functions

inductive DefinitionError.Renamed : DefinitionError → DefinitionError → Prop where
  | redefined {a b : String} : R a b → DefinitionError.Renamed (.redefined a) (.redefined b)

/-- The same error, except that a name defined twice is replaced by the other. -/
inductive BuildError.Renamed : BuildError → BuildError → Prop where
  | unsupported (kind : String) : BuildError.Renamed (.unsupported kind) (.unsupported kind)
  | malformed (error : DataError) : BuildError.Renamed (.malformed error) (.malformed error)
  | definition {d e : DefinitionError} : DefinitionError.Renamed R d e →
    BuildError.Renamed (.definition d) (.definition e)

/-- The same error, except that the name of a function that was given a number is replaced. -/
inductive RunError.Renamed : RunError → RunError → Prop where
  | missingInput (index length : Nat) :
    RunError.Renamed (.missingInput index length) (.missingInput index length)
  | scalarInput {a b : String} : R a b → RunError.Renamed (.scalarInput a) (.scalarInput b)

end Relations

variable {R : String → String → Prop}

theorem Body.Renamed.callees {b c : Body} (h : Body.Renamed R b c) :
    List.Forall₂ R b.callees c.callees := by
  cases h with
  | vector es => exact .nil
  | scalar e => exact .nil
  | chain h => exact h

/-! ## Adding functions -/

namespace Program.Renamed

variable {p q p' q' : Program} {f g : Function} {a b : String}

theorem names (h : p.Renamed R q) : List.Forall₂ R p.names q.names := by
  unfold Program.names
  rw [List.forall₂_map_left_iff, List.forall₂_map_right_iff]
  exact h.imp fun f g hfg => hfg.name

theorem mem_names_iff (hR : Name.Correspondence R) (h : p.Renamed R q) (hab : R a b) :
    a ∈ p.names ↔ b ∈ q.names :=
  List.rel_mem hR.unique hab h.names

theorem push (hR : Name.Correspondence R) (h : p.Renamed R q) (hfg : f.Renamed R g)
    (hcallees : ∀ c ∈ f.body.callees, c ∈ p.names) :
    Alike (DefinitionError.Renamed R) (Program.Renamed R) (accepted (p.push f))
      (accepted (q.push g)) := by
  by_cases hname : f.name ∈ p.names
  · rw [push_of_mem hname, push_of_mem ((h.mem_names_iff hR hfg.name).mp hname)]
    exact .error (.redefined hfg.name)
  · have hname' : g.name ∉ q.names := by rwa [← h.mem_names_iff hR hfg.name]
    have hcallees' : ∀ d ∈ g.body.callees, d ∈ q.names := by
      intro d hd
      obtain ⟨c, hc, hcd⟩ := exists_of_forall₂_of_mem (List.Forall₂.flip hfg.body.callees) hd
      exact (h.mem_names_iff hR hcd).mp (hcallees c hc)
    rw [push_eq_none_iff.mpr ⟨hname, hcallees, rfl⟩,
      push_eq_none_iff.mpr ⟨hname', hcallees', rfl⟩]
    exact .ok (List.rel_append h (.cons hfg .nil))

theorem append (hR : Name.Correspondence R) (hp : p.Renamed R p') (hq : q.Renamed R q')
    (hqw : q.WellDefined) (hqw' : q'.WellDefined) :
    Alike (DefinitionError.Renamed R) (Program.Renamed R) (p.append q) (p'.append q') := by
  have hdefines : ∀ f g : Function, f.Renamed R g → p.defines f.name = p'.defines g.name := by
    intro f g hfg
    rw [Bool.eq_iff_iff, defines_iff, defines_iff]
    exact hp.mem_names_iff hR hfg.name
  rw [Program.append, Program.append, extend_eq p hqw, extend_eq p' hqw']
  rcases find?_of_forall₂ hq hdefines with ⟨hnone, hnone'⟩ | ⟨f, g, hf, hg, hfg⟩
  · rw [hnone, hnone']
    exact .ok (List.rel_append hp hq)
  · rw [hf, hg]
    exact .error (.redefined hfg.name)

end Program.Renamed

/-! ## Compilation -/

namespace Model

variable {name a b : String}

theorem mem_names_of_compileWith {m : Model} {reporting : Reporting} {p : Program}
    (h : m.compileWith reporting name = .ok p) : name ∈ p.names := by
  obtain ⟨f, hf, rfl⟩ := exists_entry_of_compileWith h
  exact List.mem_map_of_mem (List.mem_of_getLast? hf)

theorem ofStep_mem_of_stepResults {reporting : Reporting} {steps : List Step} {ps : List Program}
    {i : Nat} (h : stepResults reporting name i steps = ps.map .ok) :
    ∀ s ∈ steps, Name.ofStep name s.name ∈ ps.flatMap Program.names := by
  induction steps generalizing ps i with
  | nil => simp
  | cons s rest ih =>
    obtain ⟨step, m⟩ := s
    rw [stepResults] at h
    obtain ⟨p, qs, rfl, hm, hrest⟩ := List.map_eq_cons_iff.mp h.symm
    rw [List.flatMap_cons, List.forall_mem_cons]
    constructor
    · exact List.mem_append_left _ (mem_names_of_compileWith hm.symm)
    · intro t ht
      exact List.mem_append_right _ (ih hrest.symm t ht)

theorem leaf_renamed (hab : R a b) {body : Except DataError Body}
    (hbody : ∀ c, body = .ok c → c.Renamed R c) :
    Alike (BuildError.Renamed R) (Program.Renamed R) (leaf a body) (leaf b body) := by
  cases body with
  | error e => exact .error (.malformed e)
  | ok c => exact .ok (.cons ⟨hab, hbody c rfl⟩ .nil)

theorem chain_renamed (hR : Name.Correspondence R) (hab : R a b) {steps : List String}
    {ps qs : List Program} (h : List.Forall₂ (Program.Renamed R) ps qs)
    (hps : ∀ p ∈ ps, p.WellDefined) (hqs : ∀ q ∈ qs, q.WellDefined)
    (hnames : ∀ s ∈ steps, Name.ofStep a s ∈ ps.flatMap Program.names) :
    Alike (DefinitionError.Renamed R) (Program.Renamed R) (chain a steps ps)
      (chain b steps qs) := by
  have hmerged : Alike (DefinitionError.Renamed R) (Program.Renamed R)
      (ps.foldlM Program.append Program.empty) (qs.foldlM Program.append Program.empty) := by
    apply Alike.foldlM h
    · intro p hp q hq hpq r t hrt
      exact hrt.append hR hpq (hps p hp) (hqs q hq)
    · exact List.Forall₂.nil
  apply hmerged.bind
  intro r t hr _ hrt
  apply hrt.push hR
  · refine ⟨hab, .chain ?_⟩
    rw [List.forall₂_map_left_iff, List.forall₂_map_right_iff, List.forall₂_same]
    intro s _
    exact hR.ofStep s hab
  · intro c hc
    obtain ⟨s, hs, rfl⟩ := List.mem_map.mp hc
    obtain ⟨-, rfl⟩ :=
      (Program.foldlM_append_eq_ok_iff Program.wellDefined_empty.distinct hps).mp hr
    rw [Program.empty, List.nil_append, Program.names_flatMap]
    exact hnames s hs

theorem mapError_renamed {x y : Except DefinitionError Program}
    (h : Alike (DefinitionError.Renamed R) (Program.Renamed R) x y) :
    Alike (BuildError.Renamed R) (Program.Renamed R) (x.mapError .definition)
      (y.mapError .definition) := by
  cases h with
  | ok h => exact .ok h
  | error h => exact .error (.definition h)

theorem named_renamed {x y : Except BuildError Program} (ha : Name.isIdentifier a = true)
    (hb : Name.isIdentifier b = true)
    (h : Alike (BuildError.Renamed R) (Program.Renamed R) x y) :
    Alike (BuildError.Renamed R) (Program.Renamed R) (named a x) (named b y) := by
  rwa [named, named, if_pos ha, if_pos hb]

mutual

theorem compileWith_renamed (hR : Name.Correspondence R) : ∀ (m : Model) (reporting : Reporting)
    {a b : String}, R a b → Name.isIdentifier a = true → Name.isIdentifier b = true →
    Alike (BuildError.Renamed R) (Program.Renamed R) (m.compileWith reporting a)
      (m.compileWith reporting b)
  | .pipeline steps, reporting, a, b, hab, ha, hb => by
    rw [compileWith, compileWith]
    apply named_renamed ha hb
    cases hcheck : checkSteps steps with
    | error e => exact .error (.malformed e)
    | ok u =>
      have hresults := stepResults_renamed hR reporting steps 0 hab ha hb
        (isStepName_of_checkSteps hcheck)
      apply (Alike.collect hresults reporting).bind
      intro ps qs hps hqs hpqs
      rw [Reporting.collect_eq_ok_iff] at hps hqs
      apply mapError_renamed
      apply chain_renamed hR hab hpqs (stepResults_wellDefined hps) (stepResults_wellDefined hqs)
      exact List.forall_mem_map.mpr (ofStep_mem_of_stepResults hps)
  | .search none, _, a, b, _, ha, hb => by
    rw [compileWith, compileWith]
    exact named_renamed ha hb (.error (.malformed .unfittedSearch))
  | .search (some m), reporting, a, b, hab, ha, hb => by
    rw [compileWith, compileWith]
    exact named_renamed ha hb (compileWith_renamed hR m reporting hab ha hb)
  | .polynomial features, _, a, b, hab, ha, hb => by
    rw [compileWith, compileWith]
    apply named_renamed ha hb
    apply leaf_renamed hab
    intro c hc
    rw [(PolynomialFeatures.body_eq_ok_iff.mp hc).2]
    exact .vector _
  | .scaler s, _, a, b, hab, ha, hb => by
    rw [compileWith, compileWith]
    apply named_renamed ha hb
    apply leaf_renamed hab
    intro c hc
    rw [(StandardScaler.body_eq_ok_iff.mp hc).2]
    exact .vector _
  | .linear l, _, a, b, hab, ha, hb => by
    rw [compileWith, compileWith]
    apply named_renamed ha hb
    apply leaf_renamed hab
    intro c hc
    cases hc
    exact .scalar _
  | .unsupported e, _, a, b, _, ha, hb => by
    rw [compileWith, compileWith]
    exact named_renamed ha hb (.error (.unsupported e))

-- Names of steps are checked before any step is compiled, so that derived names are never refused.
theorem stepResults_renamed (hR : Name.Correspondence R) (reporting : Reporting) :
    ∀ (steps : List Step) (i : Nat) {a b : String}, R a b → Name.isIdentifier a = true →
    Name.isIdentifier b = true → (∀ s ∈ steps, Name.isStepName s.name = true) →
    List.Forall₂ (Alike (BuildError.Renamed R) (Program.Renamed R))
      (stepResults reporting a i steps) (stepResults reporting b i steps)
  | [], i, a, b, _, _, _, _ => .nil
  | ⟨step, m⟩ :: rest, i, a, b, hab, ha, hb, hsteps => by
    rw [List.forall_mem_cons] at hsteps
    rw [stepResults, stepResults]
    have hm := compileWith_renamed hR m (reporting.inStep i) (hR.ofStep step hab)
      (Name.isIdentifier_ofStep ha hsteps.1) (Name.isIdentifier_ofStep hb hsteps.1)
    exact .cons hm (stepResults_renamed hR reporting rest (i + 1) hab ha hb hsteps.2)

end

end Model

/-! ## Evaluation -/

theorem alike_self {x : Except RunError Value}
    (h : ∀ e, x = .error e → ∃ i n, e = .missingInput i n) :
    Alike (RunError.Renamed R) Eq x x := by
  cases x with
  | ok v => exact .ok rfl
  | error e =>
    obtain ⟨i, n, rfl⟩ := h e rfl
    exact .error (.missingInput i n)

theorem Function.Renamed.apply {f g : Function}
    {call call' : String → Value → Except RunError Value} (hfg : f.Renamed R g)
    (hcalls : List.Forall₂ (fun c d => ∀ v, Alike (RunError.Renamed R) Eq (call c v) (call' d v))
      f.body.callees g.body.callees) (v : Value) :
    Alike (RunError.Renamed R) Eq (f.apply call v) (g.apply call' v) := by
  obtain ⟨a, body⟩ := f
  obtain ⟨b, body'⟩ := g
  obtain ⟨hname, hbody⟩ := hfg
  cases hbody with
  | vector es =>
    cases v with
    | scalar x => exact .error (.scalarInput hname)
    | vector xs =>
      apply alike_self
      intro e he
      obtain ⟨i, hi⟩ := Expr.error_of_evalAll (map_eq_error_iff.mp he)
      exact ⟨i, _, hi⟩
  | scalar e =>
    cases v with
    | scalar x => exact .error (.scalarInput hname)
    | vector xs =>
      apply alike_self
      intro e he
      obtain ⟨i, hi⟩ := Expr.error_of_eval (map_eq_error_iff.mp he)
      exact ⟨i, _, hi⟩
  | chain _ =>
    apply Alike.foldlM hcalls
    · rintro c _ d _ hcd v w rfl
      exact hcd v
    · rfl

theorem Program.Renamed.call {p q : Program} (hR : Name.Correspondence R) (h : p.Renamed R q)
    (hp : p.WellDefined) (hq : q.WellDefined) {a b : String} (ha : a ∈ p.names) (hab : R a b)
    (v : Value) : Alike (RunError.Renamed R) Eq (p.call a v) (q.call b v) := by
  apply hp.induction_on_calls (motive := fun a => ∀ b, R a b → ∀ v,
    Alike (RunError.Renamed R) Eq (p.call a v) (q.call b v)) _ ha b hab v
  intro a f hf ih b hab v
  obtain rfl := name_of_get? hf
  obtain ⟨g, hg, hfg⟩ := exists_of_forall₂_of_mem h (List.mem_of_find?_eq_some hf)
  obtain rfl : b = g.name := hR.unique.2 hab hfg.name
  rw [hp.call_eq_apply hf, hq.call_eq_apply (get?_eq_of_nodup hq.distinct hg)]
  have hcallees := (List.forall₂_and_left _ _).mpr ⟨ih, hfg.body.callees⟩
  apply hfg.apply
  apply hcallees.imp
  intro c d hcd
  exact hcd.1 d hcd.2

theorem Model.eval_renamed (hR : Name.Correspondence R) {m : Model} {reporting : Reporting}
    {a b : String} {p q : Program} (hab : R a b) (hp : m.compileWith reporting a = .ok p)
    (hq : m.compileWith reporting b = .ok q) (h : p.Renamed R q) (v : Value) :
    Alike (RunError.Renamed R) Eq (p.eval v) (q.eval v) := by
  have hpw := compileWith_wellDefined hp
  have hqw := compileWith_wellDefined hq
  have ha := mem_names_of_compileWith hp
  obtain ⟨f, hf, rfl⟩ := exists_entry_of_compileWith hp
  obtain ⟨g, hg, rfl⟩ := exists_entry_of_compileWith hq
  rw [hpw.eval_eq_call hf, hqw.eval_eq_call hg]
  exact h.call hR hpw hqw ha hab v

/-! ## Names that begin otherwise -/

/-- The second name is the first with another beginning. -/
def Name.Reprefixed (old new a b : String) : Prop :=
  ∃ tail, a = old ++ tail ∧ b = new ++ tail

theorem Name.correspondence_reprefixed (old new : String) :
    Name.Correspondence (Name.Reprefixed old new) where
  unique := by
    constructor
    · rintro a b c ⟨s, rfl, rfl⟩ ⟨t, rfl, hst⟩
      rw [(String.append_right_inj new).mp hst]
    · rintro a b c ⟨s, rfl, rfl⟩ ⟨t, hst, rfl⟩
      rw [(String.append_right_inj old).mp hst]
  ofStep := by
    rintro a b step ⟨tail, rfl, rfl⟩
    exact ⟨tail ++ "_" ++ step, by simp only [ofStep, String.append_assoc],
      by simp only [ofStep, String.append_assoc]⟩

namespace Model

/-- A model compiles under all identifiers or under none, whatever is reported. The programs, the
results of evaluation and, where the same choices are made, the errors differ only in what the
names of functions begin with. -/
theorem compile_differs_in_prefixes_only (m : Model) {n₁ n₂ : String}
    (h₁ : Name.isIdentifier n₁ = true) (h₂ : Name.isIdentifier n₂ = true) :
    (∃ p q, (∀ reporting, m.compileWith reporting n₁ = .ok p) ∧
      (∀ reporting, m.compileWith reporting n₂ = .ok q) ∧ p.Renamed (Name.Reprefixed n₁ n₂) q ∧
      ∀ v, Alike (RunError.Renamed (Name.Reprefixed n₁ n₂)) Eq (p.eval v) (q.eval v)) ∨
    ∀ reporting, ∃ d e, m.compileWith reporting n₁ = .error d ∧
      m.compileWith reporting n₂ = .error e ∧
      BuildError.Renamed (Name.Reprefixed n₁ n₂) d e := by
  have hR := Name.correspondence_reprefixed n₁ n₂
  have hn : Name.Reprefixed n₁ n₂ n₁ n₂ := ⟨"", by simp, by simp⟩
  have halike := fun reporting => compileWith_renamed hR m reporting hn h₁ h₂
  rcases (halike .first).exists_ok_or_error with ⟨p, q, hp, hq, h⟩ | ⟨d, e, hd, -⟩
  · refine Or.inl ⟨p, q, ?_, ?_, h, eval_renamed hR hn hp hq h⟩
    · exact fun reporting => compileWith_eq_ok_of_eq_ok hp reporting
    · exact fun reporting => compileWith_eq_ok_of_eq_ok hq reporting
  · apply Or.inr
    intro reporting
    rcases (halike reporting).exists_ok_or_error with ⟨p, q, hp, -⟩ | herrors
    · rw [compileWith_eq_ok_of_eq_ok hp .first] at hd
      cases hd
    · exact herrors

/-- A pipeline in a pipeline, after which comes a step of the given name. -/
def followedBy (step : String) : Model :=
  .pipeline [⟨"a", .pipeline [⟨"b", .scaler ⟨[1.0], [2.0]⟩⟩]⟩, ⟨step, .linear ⟨[3.0], 0.5⟩⟩]

theorem followedBy_two_names :
    Name.isIdentifier "f" = true ∧ Name.isIdentifier "_g" = true ∧
    (∃ p q, (followedBy "c").compile "f" = .ok p ∧ (followedBy "c").compile "_g" = .ok q ∧
      p.Renamed (Name.Reprefixed "f" "_g") q ∧
      Alike (RunError.Renamed (Name.Reprefixed "f" "_g")) Eq (p.eval (.scalar 4.0))
        (q.eval (.scalar 4.0))) ∧
    ∃ e, (followedBy "a_b").compile "f" = .error (.definition (.redefined "f_a_b")) ∧
      (followedBy "a_b").compile "_g" = .error e ∧
      BuildError.Renamed (Name.Reprefixed "f" "_g") (.definition (.redefined "f_a_b")) e := by
  have hf : Name.isIdentifier "f" = true := by decide
  have hg : Name.isIdentifier "_g" = true := by decide
  refine ⟨hf, hg, ?_, ?_⟩
  · rcases compile_differs_in_prefixes_only (followedBy "c") hf hg with
      ⟨p, q, hp, hq, h, heval⟩ | herrors
    · exact ⟨p, q, hp .first, hq .first, h, heval (.scalar 4.0)⟩
    · obtain ⟨d, e, hd, -⟩ := herrors .first
      cases hd
  · rcases compile_differs_in_prefixes_only (followedBy "a_b") hf hg with
      ⟨p, q, hp, -⟩ | herrors
    · cases hp .first
    · obtain ⟨d, e, hd, he, h⟩ := herrors .first
      cases hd
      exact ⟨e, rfl, he, h⟩

end Model

end RegressionScript
