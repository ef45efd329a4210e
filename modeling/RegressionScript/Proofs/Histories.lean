import RegressionScript.Proofs.Emission

/-!
# Histories of programs

Any number of programs, all empty at first, are changed by commands in any order. A command that is
refused counts as one that was given, and the next one runs on what it left behind. Every program
of such a history is well-defined, and every well-defined program has a history.
-/

namespace RegressionScript

set_option autoImplicit false

variable {Slot : Type}

/-- The programs at hand, by the slots that hold them. -/
def Store (Slot : Type) : Type := Slot → Program

inductive Command (Slot : Type) where
  | push (slot : Slot) (f : Function)
  | extend (slot other : Slot)
  | compile (slot : Slot) (m : Model) (reporting : Reporting) (name : String)

namespace Store

def empty : Store Slot := fun _ => Program.empty

variable [DecidableEq Slot]

def set (s : Store Slot) (slot : Slot) (p : Program) : Store Slot :=
  fun other => if other = slot then p else s other

/-- The store after a command, and why the command was refused. Adding functions leaves behind what
was added before the first that is refused; a model that does not compile leaves its slot alone. -/
def run (s : Store Slot) : Command Slot → Store Slot × Option BuildError
  | .push slot f =>
    let (p, e) := (s slot).push f
    (s.set slot p, e.map .definition)
  | .extend slot other =>
    let (p, e) := (s slot).extend (s other)
    (s.set slot p, e.map .definition)
  | .compile slot m reporting name =>
    match m.compileWith reporting name with
    | .ok p => (s.set slot p, none)
    | .error e => (s, some e)

/-- The store after commands in order, whatever became of each. -/
def runAll (s : Store Slot) : List (Command Slot) → Store Slot
  | [] => s
  | c :: cs => (s.run c).1.runAll cs

def WellDefined (s : Store Slot) : Prop :=
  ∀ slot, (s slot).WellDefined

theorem set_wellDefined {s : Store Slot} (hs : s.WellDefined) (slot : Slot) {p : Program}
    (hp : p.WellDefined) : (s.set slot p).WellDefined := by
  intro other
  unfold set
  split
  · exact hp
  · exact hs other

theorem set_self (s : Store Slot) (slot : Slot) : s.set slot (s slot) = s := by
  funext other
  unfold set
  split
  · rename_i h
    rw [h]
  · rfl

theorem run_wellDefined {s : Store Slot} (hs : s.WellDefined) (c : Command Slot) :
    (s.run c).1.WellDefined := by
  cases c with
  | push slot f => exact set_wellDefined hs slot (Program.push_wellDefined (hs slot) rfl)
  | extend slot other =>
    exact set_wellDefined hs slot (Program.pushAll_wellDefined (hs slot) (s other).functions)
  | compile slot m reporting name =>
    simp only [run]
    cases h : m.compileWith reporting name with
    | ok p => exact set_wellDefined hs slot (Model.compileWith_wellDefined h)
    | error e => exact hs

theorem runAll_wellDefined {s : Store Slot} (hs : s.WellDefined) (cs : List (Command Slot)) :
    (s.runAll cs).WellDefined := by
  induction cs generalizing s with
  | nil => exact hs
  | cons c cs ih => exact ih (run_wellDefined hs c)

theorem run_push_of_some {s : Store Slot} {slot : Slot} {f : Function} {e : DefinitionError}
    (h : ((s slot).push f).2 = some e) : s.run (.push slot f) = (s, some (.definition e)) := by
  rcases hpush : (s slot).push f with ⟨p, d⟩
  rw [hpush] at h
  obtain rfl : d = some e := h
  obtain rfl := Program.eq_of_push_eq_some hpush
  simp only [run, hpush, set_self]
  rfl

/-- In every program of every history the names are distinct and calls go to earlier positions. The
scan for calls finds the same, and a push that is refused changes nothing. Conversely a list of
functions with distinct names that passes the scan can be pushed in order. -/
theorem histories_wellDefined_and_complete :
    (∀ (cs : List (Command Slot)) (slot : Slot),
      (empty.runAll cs slot).names.Nodup ∧
      (∀ (k : Nat) (f : Function), (empty.runAll cs slot).functions[k]? = some f →
        ∀ c ∈ f.body.callees, ∃ j, j < k ∧ (empty.runAll cs slot).names[j]? = some c) ∧
      (empty.runAll cs slot).isOrdered = true) ∧
    (∀ (s : Store Slot) (slot : Slot) (f : Function) (e : DefinitionError),
      ((s slot).push f).2 = some e → s.run (.push slot f) = (s, some (.definition e))) ∧
    (∀ fs : List Function, (fs.map Function.name).Nodup → (Program.mk fs).isOrdered = true →
      fs.foldlM (fun p f => Program.accepted (p.push f)) Program.empty = .ok ⟨fs⟩) := by
  refine ⟨?_, ?_, ?_⟩
  · intro cs slot
    have hs : (empty : Store Slot).WellDefined := fun _ => Program.wellDefined_empty
    have h := runAll_wellDefined hs cs slot
    exact ⟨h.distinct, h.earlier, (Program.wellDefined_iff.mp h).2⟩
  · intro s slot f e h
    exact run_push_of_some h
  · intro fs hd ho
    have h : (Program.mk fs).WellDefined := Program.wellDefined_iff.mpr ⟨hd, ho⟩
    exact (Program.foldlM_push_eq_ok_iff Program.empty fs).mpr (Program.pushAll_empty_eq h)

end Store

end RegressionScript
