import RegressionScript.Number.Decimal

/-!
# JSON values

A value as it is written: numbers keep the form of their text, members keep their order, and a
string may hold half of a surrogate pair, in which case there is no text for it.
-/

namespace RegressionScript

set_option autoImplicit false

inductive Json where
  | null
  | bool (b : Bool)
  | number (negative : Bool) (magnitude : Decimal) (integral : Bool)
  | string (text : Option String)
  | array (items : List Json)
  | object (members : List (Option String × Json))

namespace Json

/-- How many digits of a number are read one by one. No number half-way between two floating-point
numbers has more, but it may be written with zeros after them; such a number is taken for one above
it. -/
def maxDigits : Nat := 768

/-- The number as a floating-point number, if it is finite. -/
def float? : Json → Option Float
  | .number negative magnitude _ => (magnitude.cut maxDigits).toFloat? negative
  | _ => none

/-- The number as a natural one below a bound. It has to be written without sign, fraction and
exponent. -/
def natural? (bound : Nat) : Json → Option Nat
  | .number false ⟨digits, _⟩ true => if digits < bound then some digits else none
  | _ => none

def string? : Json → Option String
  | .string text => text
  | _ => none

/-- The items of an array, each read by `read`. -/
def list? {α : Type} (read : Json → Option α) : Json → Option (List α)
  | .array items => items.mapM read
  | _ => none

mutual

/-- How deep arrays and objects are nested in each other. -/
def depth : Json → Nat
  | .array items => depthItems items + 1
  | .object members => depthMembers members + 1
  | _ => 0

def depthItems : List Json → Nat
  | [] => 0
  | item :: items => max item.depth (depthItems items)

def depthMembers : List (Option String × Json) → Nat
  | [] => 0
  | (_, value) :: members => max value.depth (depthMembers members)

end

mutual

/-- Whether every string has a text and every number is finite. -/
def isSound : Json → Bool
  | .null => true
  | .bool _ => true
  | .number negative magnitude _ => ((magnitude.cut maxDigits).toFloat? negative).isSome
  | .string text => text.isSome
  | .array items => areSoundItems items
  | .object members => areSoundMembers members

def areSoundItems : List Json → Bool
  | [] => true
  | item :: items => item.isSound && areSoundItems items

def areSoundMembers : List (Option String × Json) → Bool
  | [] => true
  | (key, value) :: members => key.isSome && value.isSound && areSoundMembers members

end

/-- The values of all members with a key. -/
def valuesAt (key : String) (members : List (Option String × Json)) : List Json :=
  members.filterMap fun member => if member.1 = some key then some member.2 else none

/-- A field of a record. One that is optional counts as null where it is missing. -/
structure Field where
  name : String
  optional : Bool := false

/-- The value of a field among the members of an object, in which it may stand only once. -/
def Field.value? (members : List (Option String × Json)) (field : Field) : Option Json :=
  match valuesAt field.name members with
  | [] => if field.optional then some .null else none
  | [value] => some value
  | _ => none

/-- The values of the fields of a record, which is written as an object or as an array of exactly
these values. -/
def record? (fields : List Field) : Json → Option (List Json)
  | .array items => if items.length = fields.length then some items else none
  | .object members => fields.mapM (Field.value? members)
  | _ => none

end Json

end RegressionScript
