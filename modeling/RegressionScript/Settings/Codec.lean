import RegressionScript.Json.Reader
import RegressionScript.Json.Writer
import RegressionScript.Settings

/-!
# Settings as JSON

Every field may be missing, and then has its default. In place of the object there may be an array
of the first values in order. Members that are no field are passed over, whatever they hold.
-/

namespace RegressionScript.Settings

set_option autoImplicit false

/-- The JSON text of settings. -/
def toJson (s : Settings) : String :=
  String.ofList <| Json.Writer.object
    [("decimal_places", Json.Writer.natural s.decimalPlaces),
      ("indent", Json.Writer.string s.indent),
      ("line_length", Json.Writer.natural s.lineLength)]

/-- A value that is given at most once, or its default. -/
def valueOr {α : Type} (default : α) (read : Json → Option α) : List Json → Option α
  | [] => some default
  | [value] => read value
  | _ => none

/-- Settings from the values given for each field. -/
def ofValues? (places indent length : List Json) : Option Settings := do
  let standard : Settings := {}
  let places ← valueOr standard.decimalPlaces (Json.natural? UInt64.size) places
  let indent ← valueOr standard.indent Json.string? indent
  let length ← valueOr standard.lineLength (Json.natural? UInt64.size) length
  some ⟨places, indent, length⟩

def ofJson? : Json → Option Settings
  | .array [] => ofValues? [] [] []
  | .array [places] => ofValues? [places] [] []
  | .array [places, indent] => ofValues? [places] [indent] []
  | .array [places, indent, length] => ofValues? [places] [indent] [length]
  | .object members =>
    if members.all fun member => member.1.isSome then
      ofValues? (Json.valuesAt "decimal_places" members) (Json.valuesAt "indent" members)
        (Json.valuesAt "line_length" members)
    else none
  | _ => none

/-- Reads settings from a JSON text. They are not checked. -/
def parse? (text : String) : Option Settings :=
  (Json.parse? text).bind ofJson?

end RegressionScript.Settings
