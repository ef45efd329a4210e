import RegressionScript.Text.Quoted

/-!
# Settings of the generated code

How many places its constants have, how its lines are indented and how long they may be.
-/

namespace RegressionScript

set_option autoImplicit false

structure Settings where
  decimalPlaces : Nat := 6
  indent : String := "    "
  lineLength : Nat := 80
deriving DecidableEq

/-- Why settings cannot be used. -/
inductive SettingsError where
  | tooManyPlaces (places : Nat)
  | visibleIndent (indent : String)
  | shortLine (length indentWidth : Nat)
deriving DecidableEq

namespace Settings

/-- The most places that constants may have. -/
def maxDecimalPlaces : Nat := 17

def indentWidth (s : Settings) : Nat :=
  s.indent.toList.length

/-- The columns left for text after the indent, at least one. -/
def textWidth (s : Settings) : Nat :=
  max 1 (s.lineLength - s.indentWidth)

/-- Whether the indent consists of spaces and tabs. -/
def indentIsBlank (s : Settings) : Bool :=
  s.indent.toList.all fun c => c == ' ' || c == '\t'

def check (s : Settings) : Except SettingsError Unit :=
  if maxDecimalPlaces < s.decimalPlaces then .error (.tooManyPlaces s.decimalPlaces)
  else if !s.indentIsBlank then .error (.visibleIndent s.indent)
  else if s.lineLength ≤ s.indentWidth then .error (.shortLine s.lineLength s.indentWidth)
  else .ok ()

end Settings

def SettingsError.message : SettingsError → String
  | .tooManyPlaces places =>
    s!"decimal places must be at most {Settings.maxDecimalPlaces}, got {places}"
  | .visibleIndent indent => s!"indent must only contain spaces and tabs, got {Quoted.quote indent}"
  | .shortLine length indentWidth =>
    s!"line length {length} leaves no room after an indent of width {indentWidth}"

end RegressionScript
