/-!
# Signs in sums

A term with a minus sign after a plus or minus is written with one sign: the text of `a + -b`
becomes `a - b`, and that of `a - -b` becomes `a + b`.
-/

namespace RegressionScript.Signs

set_option autoImplicit false

/-- Reads from left to right and turns a plus before a minus sign into a minus. -/
def joinPlus : List Char → List Char
  | '+' :: ' ' :: '-' :: cs => '-' :: ' ' :: joinPlus cs
  | c :: cs => c :: joinPlus cs
  | [] => []

/-- Reads from left to right and turns a minus before a minus sign into a plus. -/
def joinMinus : List Char → List Char
  | '-' :: ' ' :: '-' :: cs => '+' :: ' ' :: joinMinus cs
  | c :: cs => c :: joinMinus cs
  | [] => []

def joined (cs : List Char) : List Char :=
  joinMinus (joinPlus cs)

def normalize (text : String) : String :=
  String.ofList (joined text.toList)

end RegressionScript.Signs
