import RegressionScript.Proofs.ReadBack

/-!
# The same text under other settings

Indent and line length decide where the blanks of the generated text stand and nothing else. Every
function is a header, lines that are indented alike, and an end, and the lines hold the same pieces
of text at every width.
-/

namespace RegressionScript

set_option autoImplicit false

/-! ## Words -/

theorem Words.splitFrom_append_cons (word a b : List Char) {c : Char} (hc : isBlank c = true) :
    splitFrom word (a ++ c :: b) = splitFrom word a ++ splitFrom [] b := by
  induction a generalizing word with
  | nil => rw [List.nil_append, splitFrom_cons, if_pos hc]
  | cons d a ih =>
    rw [List.cons_append, splitFrom_cons, splitFrom_cons]
    split
    · rw [ih, List.append_assoc]
    · rw [ih]

theorem Words.divides_split : Divides split where
  nil := rfl
  blank a b _ hc := splitFrom_append_cons [] a b hc

/-! ## Lines of a body -/

namespace Function

variable {β : Type} {read : List Char → List β} {s : Settings}

theorem indented_cons (indent line : List Char) {lines : List (List Char)} (h : lines ≠ []) :
    indented indent (line :: lines) = indent ++ (line ++ '\n' :: indented indent lines) := by
  cases lines with
  | nil => exact absurd rfl h
  | cons next lines =>
    rw [indented, indented, List.intercalate_cons_cons, List.append_assoc, List.cons_append]

/-- One call of a chain, without indent and line break. -/
def callPiece (callee : String) : List Char :=
  "_this = _this call ".toList ++ (callee.toList ++ [';'])

theorem callText_append (indent : List Char) (callee : String) (rest : List Char) :
    callText indent callee ++ rest = indent ++ (callPiece callee ++ '\n' :: rest) := by
  have hend : ";\n".toList = [';', '\n'] := rfl
  -- rewriting with the equation of `callPiece` would evaluate its text
  unfold callText callPiece
  simp only [hend, List.append_assoc, List.cons_append, List.nil_append]

theorem callTexts_eq_indented (indent : List Char) (callees : List String) :
    callees.flatMap (callText indent) ++ (indent ++ "_this".toList) =
      indented indent (callees.map callPiece ++ ["_this".toList]) := by
  induction callees with
  | nil => rfl
  | cons callee callees ih =>
    rw [List.map_cons, List.cons_append, indented_cons _ _ (List.concat_ne_nil _ _), ← ih,
      List.flatMap_cons, List.append_assoc, callText_append]

def bodyLines (s : Settings) : Body → List (List Char)
  | .vector es => vectorLines s es
  | .scalar e => scalarLines s e
  | .chain callees => callees.map callPiece ++ ["_this".toList]

def header (f : Function) : List Char :=
  f.name.toList ++
    match f.body with
    | .vector _ => " = \x7b[".toList
    | _ => " = \x7b".toList

theorem text_eq_indented (s : Settings) (f : Function) :
    f.text s =
      f.header ++ '\n' ::
        (indented s.indent.toList (bodyLines s f.body) ++ '\n' :: "\x7d;\n".toList) := by
  obtain ⟨name, body⟩ := f
  cases body with
  | vector es =>
    simp only [text, header, bodyLines, List.append_assoc]
    rfl
  | scalar e =>
    simp only [text, header, bodyLines, List.append_assoc]
    rfl
  | chain callees =>
    simp only [text, header, bodyLines, ← callTexts_eq_indented, List.append_assoc]
    rfl

/-- What the lines of a body hold, in order. An array without elements has its bracket alone. -/
def pieces (places : Nat) : Body → List (List Char)
  | .vector [] => [[']']]
  | .vector es => vectorUnits places es
  | .scalar e => [exprText places e]
  | .chain callees => callees.map callPiece ++ ["_this".toList]

theorem flatMap_bodyLines (h : Words.Divides read) (s : Settings) (body : Body) :
    (bodyLines s body).flatMap read = (pieces s.decimalPlaces body).flatMap read := by
  cases body with
  | vector es =>
    cases es with
    | nil => rfl
    | cons e es => exact h.vectorLines s e es
  | scalar e =>
    rw [bodyLines, scalarLines, h.fillWords, pieces, List.flatMap_singleton]
  | chain callees => rfl

theorem read_text (h : Words.Divides read) (hindent : ∀ c ∈ s.indent.toList, Words.isBlank c = true)
    (f : Function) :
    read (f.text s) =
      read f.header ++ ((pieces s.decimalPlaces f.body).flatMap read ++ read "\x7d;\n".toList) := by
  rw [text_eq_indented, h.blank _ _ (by decide), h.blank _ _ (by decide), h.indented hindent,
    flatMap_bodyLines h]

theorem isWritable_of_check (h : s.check = .ok ()) (f : Function) : f.isWritable s = true := by
  have hplaces := (Settings.check_eq_ok_iff.mp h).1
  have hmax : Settings.maxDecimalPlaces ≤ Literal.maxPlaces := by decide
  rw [isWritable, decide_eq_true (hplaces.trans hmax), Bool.true_or]

end Function

/-! ## Programs -/

namespace Program

variable {β : Type} {read : List Char → List β} {s s₁ s₂ : Settings}

theorem read_render (h : Words.Divides read)
    (hindent : ∀ c ∈ s.indent.toList, Words.isBlank c = true) (p : Program) :
    read (p.render s).toList =
      p.functions.flatMap fun f =>
        read f.header ++
          ((Function.pieces s.decimalPlaces f.body).flatMap read ++ read "\x7d;\n".toList) := by
  have htext : ∀ f : Function, read (f.text s) = _ := Function.read_text h hindent
  rw [render, String.toList_ofList, h.intercalate (by decide) (by simp), List.flatMap_map]
  simp only [htext]

/-- A reading for which a blank only divides finds the same in both texts. -/
theorem read_render_eq (h : Words.Divides read)
    (h₁ : ∀ c ∈ s₁.indent.toList, Words.isBlank c = true)
    (h₂ : ∀ c ∈ s₂.indent.toList, Words.isBlank c = true)
    (hplaces : s₁.decimalPlaces = s₂.decimalPlaces) (p : Program) :
    read (p.render s₁).toList = read (p.render s₂).toList := by
  rw [read_render h h₁, read_render h h₂, hplaces]

theorem render?_of_check (h : s.check = .ok ()) (p : Program) :
    p.render? s = some (p.render s) := by
  have hwritable : p.functions.all (Function.isWritable s) = true := by
    rw [List.all_eq_true]
    intro f _
    exact Function.isWritable_of_check h f
  rw [render?, if_pos hwritable]

end Program

namespace Model

variable {s s₁ s₂ : Settings}

theorem scriptWith_of_check (h : s.check = .ok ()) (m : Model) (reporting : Reporting)
    (name : String) :
    m.scriptWith reporting name s = (m.compileWith reporting name).map (Program.render s) := by
  rw [scriptWith, h]

/-- Settings of the same places give texts of the same words: any program is written under both, and
a model gives two such texts, whatever is reported, or the same error where the same failing steps
are reported. -/
theorem layout_moves_blanks_only (h₁ : s₁.check = .ok ()) (h₂ : s₂.check = .ok ())
    (hplaces : s₁.decimalPlaces = s₂.decimalPlaces) :
    (∀ p : Program, ∃ t₁ t₂, p.render? s₁ = some t₁ ∧ p.render? s₂ = some t₂ ∧
      Words.split t₁.toList = Words.split t₂.toList) ∧
    ∀ (m : Model) (name : String),
      (∀ reporting, ∃ e, m.scriptWith reporting name s₁ = .error e ∧
        m.scriptWith reporting name s₂ = .error e) ∨
      ∃ t₁ t₂, (∀ reporting, m.scriptWith reporting name s₁ = .ok t₁) ∧
        (∀ reporting, m.scriptWith reporting name s₂ = .ok t₂) ∧
        Words.split t₁.toList = Words.split t₂.toList := by
  have hwords := Program.read_render_eq Words.divides_split (isBlank_of_check h₁)
    (isBlank_of_check h₂) hplaces
  constructor
  · intro p
    exact ⟨p.render s₁, p.render s₂, Program.render?_of_check h₁ p,
      Program.render?_of_check h₂ p, hwords p⟩
  · intro m name
    simp only [scriptWith_of_check h₁, scriptWith_of_check h₂]
    by_cases hok : ∃ reporting p, m.compileWith reporting name = .ok p
    · obtain ⟨reporting, p, hp⟩ := hok
      have hcompile := compileWith_eq_ok_of_eq_ok hp
      refine Or.inr ⟨p.render s₁, p.render s₂, ?_, ?_, hwords p⟩
      · exact fun other => congrArg _ (hcompile other)
      · exact fun other => congrArg _ (hcompile other)
    · apply Or.inl
      intro reporting
      cases h : m.compileWith reporting name with
      | error e => exact ⟨e, rfl, rfl⟩
      | ok p => exact absurd ⟨reporting, p, h⟩ hok

/-- Lines that are too short for most units. -/
def narrow : Settings := { indent := "\t", lineLength := 9 }

theorem layout_of_signed_narrow :
    Settings.check {} = .ok () ∧ narrow.check = .ok () ∧
      ∃ t₁ t₂, signed.script "f" {} = .ok t₁ ∧ signed.script "f" narrow = .ok t₂ ∧
        Words.split t₁.toList = Words.split t₂.toList := by
  have hdefault : Settings.check {} = .ok () := by decide
  have hnarrow : narrow.check = .ok () := by decide
  obtain ⟨-, hscript⟩ := layout_moves_blanks_only hdefault hnarrow rfl
  refine ⟨hdefault, hnarrow, ?_⟩
  rcases hscript signed "f" with herrors | ⟨t₁, t₂, ht₁, ht₂, hwords⟩
  · obtain ⟨e, he, -⟩ := herrors .first
    cases he
  · exact ⟨t₁, t₂, ht₁ .first, ht₂ .first, hwords⟩

end Model

end RegressionScript
