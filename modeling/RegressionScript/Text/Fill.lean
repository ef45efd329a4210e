import RegressionScript.Text.Words

/-!
# Filling lines

Units of text are packed into lines in order, as many on each line as fit with single spaces
between them. A unit is never split: one that is longer than the width has a line of its own.
Widths count characters.
-/

namespace RegressionScript.Fill

set_option autoImplicit false

/-- The lines for `units` after a line has been begun. An empty line counts as not begun. -/
def fillFrom (width : Nat) : List Char → List (List Char) → List (List Char)
  | line, [] => if line = [] then [] else [line]
  | line, unit :: units =>
    if line = [] then fillFrom width unit units
    else if line.length + 1 + unit.length ≤ width then
      fillFrom width (line ++ ' ' :: unit) units
    else line :: fillFrom width unit units

def fill (width : Nat) (units : List (List Char)) : List (List Char) :=
  fillFrom width [] units

/-- Fills lines with the words of a text. -/
def fillWords (width : Nat) (text : List Char) : List (List Char) :=
  fill width (Words.split text)

/-- The lines of whole units. -/
def unitLines (units : List String) (width : Nat) : List String :=
  (fill width (units.map String.toList)).map String.ofList

/-- The lines of the words of a text. -/
def wordLines (text : String) (width : Nat) : List String :=
  (fillWords width text.toList).map String.ofList

end RegressionScript.Fill
