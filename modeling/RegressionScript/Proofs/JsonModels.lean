import Mathlib
import RegressionScript.Model.Codec
import RegressionScript.Proofs.JsonText
import RegressionScript.Proofs.ReadBack

/-!
# Reading models back

The text of a model holds one value, and from this value the model is read back if its numbers are
finite. Writing and reading are separate recursions over the tree, which meet at the value.
-/

namespace RegressionScript

set_option autoImplicit false

namespace Model

variable {steps : List Step} {m : Model}

theorem isFinite_pipeline_iff :
    (pipeline steps).IsFinite ↔ ∀ s ∈ steps, s.estimator.IsFinite := by
  simp only [IsFinite, nodes, List.forall_mem_cons, mem_stepNodes_iff, parameters]
  constructor
  · rintro ⟨-, h⟩ s hs n hn
    exact h n ⟨s, hs, hn⟩
  · intro h
    refine ⟨by simp, ?_⟩
    rintro n ⟨s, hs, hn⟩
    exact h s hs n hn

theorem isFinite_search_iff : (search (some m)).IsFinite ↔ m.IsFinite := by
  simp [IsFinite, nodes, parameters]

theorem isFinite_of_parameters_eq_nil (hnodes : m.nodes = [m]) (h : m.parameters = []) :
    m.IsFinite := by
  simp [IsFinite, hnodes, h]

theorem isFinite_scaler_iff {s : StandardScaler} :
    (scaler s).IsFinite ↔ (∀ x ∈ s.mean, (Binary64.ofFloat x).isFinite = true) ∧
      ∀ x ∈ s.scale, (Binary64.ofFloat x).isFinite = true := by
  simp [IsFinite, nodes, parameters, or_imp, forall_and]

theorem isFinite_linear_iff {l : LinearModel} :
    (linear l).IsFinite ↔ (∀ x ∈ l.coefficients, (Binary64.ofFloat x).isFinite = true) ∧
      (Binary64.ofFloat l.intercept).isFinite = true := by
  simp [IsFinite, nodes, parameters, or_imp, forall_and]

end Model

namespace Codec

open Json.Reader (Reads ReadsMember)

/-! ## The value of a model -/

def memberValues (fields : List Json.Field) (values : List Json) : List (Option String × Json) :=
  (fields.map fun field => some field.name).zip values

def recordValue (kind : Kind) (values : List Json) : Json :=
  .object ((some "type", .string (some kind.name)) :: memberValues kind.fields values)

def powerValues (rows : List (List UInt32)) : Json :=
  .array (rows.map fun row => .array (row.map fun power => .number false ⟨power.toNat, 0⟩ true))

section

variable (held : Float → Json)

def floatValues (xs : List Float) : Json :=
  .array (xs.map held)

mutual

/-- The value in the text of a model, from the values in the texts of its numbers. -/
def value : Model → Json
  | .pipeline steps => recordValue .pipeline [.array (stepValues steps)]
  | .search none => recordValue .gridSearch [.null]
  | .search (some m) => recordValue .gridSearch [value m]
  | .polynomial p => recordValue .polynomialFeatures [powerValues p.powers]
  | .scaler s => recordValue .standardScaler [floatValues held s.mean, floatValues held s.scale]
  | .linear l => recordValue .linear [floatValues held l.coefficients, held l.intercept]
  | .unsupported estimator => recordValue .unsupported [.string (some estimator)]

def stepValues : List Step → List Json
  | [] => []
  | ⟨name, m⟩ :: rest =>
    .object (memberValues stepFields [.string (some name), value m]) :: stepValues rest

end

end

variable {number : Float → List Char} {held : Float → Json} {fields : List Json.Field}
  {texts : List (List Char)} {values : List Json}

theorem readsMembers (fields : List Json.Field) (h : List.Forall₂ Reads texts values) :
    List.Forall₂ ReadsMember (members fields texts) (memberValues fields values) := by
  induction fields generalizing texts values with
  | nil => exact .nil
  | cons field fields ih =>
    cases h with
    | nil => exact .nil
    | cons hvalue h => exact .cons ⟨rfl, hvalue⟩ (ih h)

theorem reads_record (kind : Kind) (h : List.Forall₂ Reads texts values) :
    Reads (record kind texts) (recordValue kind values) :=
  Json.Reader.reads_object (.cons ⟨rfl, Json.Reader.reads_string _⟩ (readsMembers kind.fields h))

theorem reads_floats (h : ∀ v, Reads (number v) (held v)) (xs : List Float) :
    Reads (floats number xs) (floatValues held xs) := by
  apply Json.Reader.reads_array
  rw [List.forall₂_map_left_iff, List.forall₂_map_right_iff, List.forall₂_same]
  exact fun x _ => h x

theorem reads_powers (rows : List (List UInt32)) : Reads (powers rows) (powerValues rows) := by
  apply Json.Reader.reads_array
  rw [List.forall₂_map_left_iff, List.forall₂_map_right_iff, List.forall₂_same]
  intro row _
  apply Json.Reader.reads_array
  rw [List.forall₂_map_left_iff, List.forall₂_map_right_iff, List.forall₂_same]
  exact fun power _ => Json.Reader.reads_natural power.toNat

mutual

theorem reads_text (h : ∀ v, Reads (number v) (held v)) :
    ∀ m : Model, Reads (text number m) (value held m)
  | .pipeline steps =>
    reads_record .pipeline (.cons (Json.Reader.reads_array (reads_stepTexts h steps)) .nil)
  | .search none => reads_record .gridSearch (.cons Json.Reader.reads_null .nil)
  | .search (some m) => reads_record .gridSearch (.cons (reads_text h m) .nil)
  | .polynomial p => reads_record .polynomialFeatures (.cons (reads_powers p.powers) .nil)
  | .scaler s =>
    reads_record .standardScaler
      (.cons (reads_floats h s.mean) (.cons (reads_floats h s.scale) .nil))
  | .linear l =>
    reads_record .linear (.cons (reads_floats h l.coefficients) (.cons (h l.intercept) .nil))
  | .unsupported estimator =>
    reads_record .unsupported (.cons (Json.Reader.reads_string estimator) .nil)

theorem reads_stepTexts (h : ∀ v, Reads (number v) (held v)) : ∀ steps : List Step,
    List.Forall₂ Reads (stepTexts number steps) (stepValues held steps)
  | [] => .nil
  | ⟨name, m⟩ :: rest =>
    .cons (Json.Reader.reads_object (readsMembers stepFields
      (.cons (Json.Reader.reads_string name) (.cons (reads_text h m) .nil))))
      (reads_stepTexts h rest)

end

/-! ## Soundness -/

theorem areSoundItems_iff {items : List Json} :
    Json.areSoundItems items = true ↔ ∀ j ∈ items, j.isSound = true := by
  induction items with
  | nil => simp [Json.areSoundItems]
  | cons j items ih => simp [Json.areSoundItems, ih]

theorem areSoundMembers_memberValues (fields : List Json.Field)
    (h : ∀ j ∈ values, j.isSound = true) :
    Json.areSoundMembers (memberValues fields values) = true := by
  induction fields generalizing values with
  | nil => rfl
  | cons field fields ih =>
    cases values with
    | nil => rfl
    | cons j values =>
      rw [List.forall_mem_cons] at h
      rw [memberValues, List.map_cons, List.zip_cons_cons, Json.areSoundMembers, h.1]
      exact ih h.2

theorem isSound_recordValue (kind : Kind) (h : ∀ j ∈ values, j.isSound = true) :
    (recordValue kind values).isSound = true := by
  rw [recordValue, Json.isSound, Json.areSoundMembers]
  exact areSoundMembers_memberValues kind.fields h

theorem isSound_floatValues (h : ∀ v, (held v).Holds v) (xs : List Float) :
    (floatValues held xs).isSound = true := by
  rw [floatValues, Json.isSound, areSoundItems_iff, List.forall_mem_map]
  exact fun x _ => (h x).isSound

theorem isSound_power (power : UInt32) :
    (Json.number false ⟨power.toNat, 0⟩ true).isSound = true := by
  have hlt := power.toNat_lt
  have hwidth := Digits.width_le_of_lt (by decide) (show power.toNat < 10 ^ 10 by omega)
  rw [Json.isSound, Decimal.cut_eq_self (hwidth.trans (by decide))]
  exact Decimal.isSome_toFloat? false (hlt.trans (by decide +kernel))

theorem isSound_powerValues (rows : List (List UInt32)) : (powerValues rows).isSound = true := by
  rw [powerValues, Json.isSound, areSoundItems_iff, List.forall_mem_map]
  intro row _
  rw [Json.isSound, areSoundItems_iff, List.forall_mem_map]
  exact fun power _ => isSound_power power

mutual

theorem isSound_value (h : ∀ v, (held v).Holds v) : ∀ m : Model, (value held m).isSound = true
  | .pipeline steps =>
    isSound_recordValue .pipeline (by simpa [Json.isSound] using isSound_stepValues h steps)
  | .search none => isSound_recordValue .gridSearch (by simp [Json.isSound])
  | .search (some m) => isSound_recordValue .gridSearch (by simpa using isSound_value h m)
  | .polynomial p =>
    isSound_recordValue .polynomialFeatures (by simpa using isSound_powerValues p.powers)
  | .scaler s => isSound_recordValue .standardScaler (by simp [isSound_floatValues h])
  | .linear l =>
    isSound_recordValue .linear (by simp [isSound_floatValues h, (h l.intercept).isSound])
  | .unsupported estimator => isSound_recordValue .unsupported (by simp [Json.isSound])

theorem isSound_stepValues (h : ∀ v, (held v).Holds v) :
    ∀ steps : List Step, Json.areSoundItems (stepValues held steps) = true
  | [] => rfl
  | ⟨name, m⟩ :: rest => by
    rw [stepValues, Json.areSoundItems, isSound_stepValues h rest, Bool.and_true, Json.isSound]
    apply areSoundMembers_memberValues
    simp [Json.isSound, isSound_value h m]

end

/-! ## Reading the value -/

/-- A result that is there under a condition. -/
def Yields {α : Type} (result : Option α) (a : α) (condition : Prop) : Prop :=
  ∀ b, result = some b ↔ b = a ∧ condition

section

variable {α β : Type} {result : Option α} {a : α} {p q : Prop}

theorem yields_some (a : α) : Yields (some a) a True := by
  intro b
  rw [Option.some.injEq, eq_comm, and_true]

theorem Yields.of_iff (h : Yields result a p) (hpq : p ↔ q) : Yields result a q := by
  intro b
  rw [h b, hpq]

theorem Yields.bind {f : α → Option β} {b : β} (h : Yields result a p) (hf : Yields (f a) b q) :
    Yields (result.bind f) b (p ∧ q) := by
  intro c
  rw [Option.bind_eq_some_iff]
  constructor
  · rintro ⟨a', ha', hc⟩
    obtain ⟨rfl, hp⟩ := (h a').mp ha'
    obtain ⟨rfl, hq⟩ := (hf c).mp hc
    exact ⟨rfl, hp, hq⟩
  · rintro ⟨rfl, hp, hq⟩
    exact ⟨a, (h a).mpr ⟨rfl, hp⟩, (hf c).mpr ⟨rfl, hq⟩⟩

/-- What is made of a result is there under the same condition. -/
theorem Yields.bind_some (h : Yields result a p) (f : α → β) :
    Yields (result.bind fun a => some (f a)) (f a) p :=
  (h.bind (yields_some (f a))).of_iff (and_true p).to_iff

theorem Yields.map (h : Yields result a p) (f : α → β) : Yields (result.map f) (f a) p := by
  rw [Option.map_eq_bind]
  exact h.bind_some f

theorem yields_mapM {read : Json → Option α} {write : α → Json} {condition : α → Prop}
    (h : ∀ x, Yields (read (write x)) x (condition x)) (xs : List α) :
    Yields ((xs.map write).mapM read) xs (∀ x ∈ xs, condition x) := by
  induction xs with
  | nil =>
    rw [List.map_nil, List.mapM_nil]
    exact (yields_some []).of_iff (by simp)
  | cons x xs ih =>
    rw [List.map_cons, List.mapM_cons, List.forall_mem_cons]
    exact (h x).bind (ih.bind_some (x :: ·))

end

theorem depthMembers_memberValues (h : values.length = fields.length) :
    Json.depthMembers (memberValues fields values) = Json.depthItems values := by
  induction fields generalizing values with
  | nil =>
    rw [List.eq_nil_of_length_eq_zero h]
    rfl
  | cons field fields ih =>
    obtain ⟨j, values, rfl⟩ := List.exists_cons_of_length_eq_add_one h
    rw [Json.depthItems, ← ih (Nat.succ.inj h)]
    rfl

theorem depth_recordValue {kind : Kind} (h : values.length = kind.fields.length) :
    (recordValue kind values).depth = Json.depthItems values + 1 := by
  simp [recordValue, Json.depth, Json.depthMembers, depthMembers_memberValues h]

theorem tagged?_recordValue (nested : Bool) {kind : Kind}
    (h : values.length = kind.fields.length) :
    tagged? nested (recordValue kind values) = some (kind, values) := by
  cases kind with
  | standardScaler =>
    obtain ⟨mean, scale, rfl⟩ := List.length_eq_two.mp h
    rfl
  | linear =>
    obtain ⟨coefficients, intercept, rfl⟩ := List.length_eq_two.mp h
    rfl
  | _ =>
    obtain ⟨value, rfl⟩ := List.length_eq_one_iff.mp h
    rfl

theorem model?_recordValue (levels : Nat) (nested : Bool) {kind : Kind}
    (h : values.length = kind.fields.length) :
    model? (levels + 1) nested (recordValue kind values) =
      ofFields? (model? levels true) kind values := by
  rw [model?, tagged?_recordValue nested h]
  rfl

/-! ## Models -/

theorem yields_floats (h : ∀ v, (held v).Holds v) (xs : List Float) :
    Yields ((floatValues held xs).list? Json.float?) xs
      (∀ x ∈ xs, (Binary64.ofFloat x).isFinite = true) :=
  yields_mapM (fun x _ => (h x).float?_eq_some_iff) xs

theorem yields_powers (rows : List (List UInt32)) :
    Yields ((powerValues rows).list? (Json.list? power?)) rows True := by
  have hpower (power : UInt32) :
      Yields (power? (.number false ⟨power.toNat, 0⟩ true)) power True := by
    rw [power?, Json.natural?, if_pos power.toNat_lt, Option.map_some]
    convert yields_some power
    exact UInt32.ofNat_toNat
  have hrow (row : List UInt32) := yields_mapM hpower row
  exact (yields_mapM hrow rows).of_iff (by simp)

theorem exists_value_eq_object (held : Float → Json) (m : Model) :
    ∃ members, value held m = .object members := by
  cases m with
  | search best => cases best <;> exact ⟨_, rfl⟩
  | _ => exact ⟨_, rfl⟩

theorem yields_scaler (h : ∀ v, (held v).Holds v) (read : Json → Option Model)
    (s : StandardScaler) :
    Yields (ofFields? read .standardScaler [floatValues held s.mean, floatValues held s.scale])
      (.scaler s) (Model.scaler s).IsFinite := by
  rw [Model.isFinite_scaler_iff, ofFields?]
  exact (yields_floats h s.mean).bind
    ((yields_floats h s.scale).bind_some fun scale => Model.scaler ⟨s.mean, scale⟩)

theorem yields_linear (h : ∀ v, (held v).Holds v) (read : Json → Option Model)
    (l : LinearModel) :
    Yields (ofFields? read .linear [floatValues held l.coefficients, held l.intercept])
      (.linear l) (Model.linear l).IsFinite := by
  have hintercept : Yields (held l.intercept).float? l.intercept
      ((Binary64.ofFloat l.intercept).isFinite = true) :=
    fun _ => (h l.intercept).float?_eq_some_iff
  rw [Model.isFinite_linear_iff, ofFields?]
  exact (yields_floats h l.coefficients).bind
    (hintercept.bind_some fun x => Model.linear ⟨l.coefficients, x⟩)

theorem yields_step? {read : Json → Option Model} {m : Model} {p : Prop} (name : String)
    (h : Yields (read (value held m)) m p) :
    Yields (step? read (.object (memberValues stepFields [.string (some name), value held m])))
      ⟨name, m⟩ p := by
  have hstep : step? read (.object (memberValues stepFields [.string (some name), value held m])) =
      (read (value held m)).bind fun estimator => some ⟨name, estimator⟩ := rfl
  rw [hstep]
  exact h.bind_some (Step.mk name)

theorem ofFields?_search (read : Json → Option Model) (m : Model) :
    ofFields? read .gridSearch [value held m] =
      (read (value held m)).map fun best => .search (some best) := by
  obtain ⟨members, hmembers⟩ := exists_value_eq_object held m
  rw [hmembers]
  rfl

mutual

/-- Every model that lies within the levels of the reader is read from its value exactly if it is
finite. -/
theorem yields_model? (hheld : ∀ v, (held v).Holds v) : ∀ (m : Model) (levels : Nat)
    (nested : Bool), (value held m).depth ≤ levels →
    Yields (model? levels nested (value held m)) m m.IsFinite
  | m, 0, _, h => by
    -- every model is an object, and so at least one level deep
    obtain ⟨members, hmembers⟩ := exists_value_eq_object held m
    rw [hmembers, Json.depth] at h
    cases h
  | .pipeline steps, levels + 1, nested, h => by
    rw [value, model?_recordValue levels nested rfl, Model.isFinite_pipeline_iff]
    refine (yields_stepValues hheld steps levels ?_).map Model.pipeline
    rw [value, depth_recordValue rfl, Json.depthItems, Json.depth] at h
    omega
  | .search none, levels + 1, nested, h => by
    rw [value, model?_recordValue levels nested rfl]
    exact (yields_some _).of_iff
      (iff_of_true trivial (Model.isFinite_of_parameters_eq_nil rfl rfl))
  | .search (some m), levels + 1, nested, h => by
    rw [value, model?_recordValue levels nested rfl, Model.isFinite_search_iff, ofFields?_search]
    refine (yields_model? hheld m levels true ?_).map fun best => Model.search (some best)
    rw [value, depth_recordValue rfl, Json.depthItems] at h
    omega
  | .polynomial p, levels + 1, nested, h => by
    rw [value, model?_recordValue levels nested rfl]
    exact ((yields_powers p.powers).map fun rows => Model.polynomial ⟨rows⟩).of_iff
      (iff_of_true trivial (Model.isFinite_of_parameters_eq_nil rfl rfl))
  | .scaler s, levels + 1, nested, h => by
    rw [value, model?_recordValue levels nested rfl]
    exact yields_scaler hheld _ s
  | .linear l, levels + 1, nested, h => by
    rw [value, model?_recordValue levels nested rfl]
    exact yields_linear hheld _ l
  | .unsupported estimator, levels + 1, nested, h => by
    rw [value, model?_recordValue levels nested rfl]
    exact ((yields_some estimator).map Model.unsupported).of_iff
      (iff_of_true trivial (Model.isFinite_of_parameters_eq_nil rfl rfl))

theorem yields_stepValues (hheld : ∀ v, (held v).Holds v) : ∀ (steps : List Step) (levels : Nat),
    Json.depthItems (stepValues held steps) ≤ levels →
    Yields ((stepValues held steps).mapM (step? (model? levels true))) steps
      (∀ s ∈ steps, s.estimator.IsFinite)
  | [], levels, _ => (yields_some []).of_iff (by simp)
  | ⟨name, m⟩ :: rest, levels, h => by
    rw [stepValues, Json.depthItems, Json.depth, depthMembers_memberValues rfl, Json.depthItems,
      Json.depthItems] at h
    have hstep := yields_step? name (yields_model? hheld m levels true (by omega))
    have hrest := yields_stepValues hheld rest levels (by omega)
    rw [stepValues, List.mapM_cons, List.forall_mem_cons]
    exact hstep.bind (hrest.bind_some (⟨name, m⟩ :: ·))

end

end Codec

namespace Model

/-- Numbers may be spelled in any way from which they are the nearest ones. The text of a model then
holds one value. If this value is not nested too deeply, the model is read from the text exactly if
its numbers are finite, and then it is the same model. -/
theorem json_read_back :
    Json.Spelling Json.Writer.float ∧
      ∀ {number : Float → List Char}, Json.Spelling number → ∀ m : Model,
        ∃ j, Json.parse? (m.toJsonWith number) = some j ∧
          (j.depth ≤ Codec.maxDepth →
            ((parse? (m.toJsonWith number)).isSome = true ↔ m.IsFinite) ∧
              (m.IsFinite → parse? (m.toJsonWith number) = some m)) ∧
          (Codec.maxDepth < j.depth → parse? (m.toJsonWith number) = none) := by
  refine ⟨Json.spelling_float, fun {number} hnumber m => ?_⟩
  choose held hreads hheld using hnumber
  have hparse : Json.parse? (m.toJsonWith number) = some (Codec.value held m) :=
    Json.parse?_of_reads (Codec.reads_text hreads m)
  refine ⟨Codec.value held m, hparse, ?_, ?_⟩
  · intro hdepth
    have hyields := Codec.yields_model? hheld m Codec.maxDepth false hdepth
    have hmodel : parse? (m.toJsonWith number) =
        Codec.model? Codec.maxDepth false (Codec.value held m) := by
      simp [parse?, hparse, Codec.isSound_value hheld, hdepth]
    rw [hmodel]
    constructor
    · rw [Option.isSome_iff_exists]
      constructor
      · rintro ⟨m', hm'⟩
        exact ((hyields m').mp hm').2
      · exact fun hfinite => ⟨m, (hyields m).mpr ⟨rfl, hfinite⟩⟩
    · exact fun hfinite => (hyields m).mpr ⟨rfl, hfinite⟩
  · intro hdepth
    simp [parse?, hparse, hdepth]

/-- Models of all kinds in each other, with quotes and controls in their names, rows of different
lengths, a zero with a sign, the least number above zero and numbers in both notations. -/
def assorted : Model :=
  .pipeline [⟨"say \"größe\"\n", .search (some (.pipeline
      [⟨"\x01\\", .scaler ⟨[-0.0, 5e-324], [1.7976931348623157e308]⟩⟩]))⟩,
    ⟨"", .polynomial ⟨[[], [4294967295, 0]]⟩⟩, ⟨"none", .search none⟩,
    ⟨"fit", .linear ⟨[0.1, 1e15, 1e16], -1.5e-7⟩⟩, ⟨"else", .unsupported "𝒳"⟩]

theorem json_read_back_assorted :
    assorted.IsFinite ∧ parse? assorted.toJson = some assorted := by
  have hfinite : assorted.IsFinite := by
    unfold IsFinite
    decide +kernel
  have hdepth : (Codec.value Json.ofFloat assorted).depth ≤ Codec.maxDepth := by decide +kernel
  obtain ⟨j, hj, hread, -⟩ := json_read_back.2 Json.spelling_float assorted
  have hparse : Json.parse? assorted.toJson = some (Codec.value Json.ofFloat assorted) :=
    Json.parse?_of_reads (Codec.reads_text Json.Reader.reads_float assorted)
  obtain rfl : Codec.value Json.ofFloat assorted = j := Option.some.inj (hparse.symm.trans hj)
  exact ⟨hfinite, (hread hdepth).2 hfinite⟩

end Model

end RegressionScript
