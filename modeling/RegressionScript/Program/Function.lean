import RegressionScript.Expr.Eval
import RegressionScript.Settings
import RegressionScript.Text.Fill
import RegressionScript.Text.Signs

/-!
# Functions of the generated code

A function computes an array, computes a number, or passes its argument through other functions.
Here are its text, which is SQF, and its value. In the text the argument is called `_this`, its
elements are picked by `#`, and `call` applies a function to it.
-/

namespace RegressionScript

set_option autoImplicit false

inductive Body where
  | vector (elements : List Expr)
  | scalar (expr : Expr)
  | chain (callees : List String)

structure Function where
  name : String
  body : Body

inductive Value where
  | scalar (x : Float)
  | vector (xs : List Float)
deriving DecidableEq

namespace Body

def beq : Body → Body → Bool
  | .vector es, .vector fs => Expr.beqAll es fs
  | .scalar e, .scalar f => e.beq f
  | .chain cs, .chain ds => cs == ds
  | _, _ => false

/-- The functions that a body calls, in order. -/
def callees : Body → List String
  | .chain callees => callees
  | _ => []

/-- Whether the text of a body holds the text of an expression. -/
def hasExpr : Body → Bool
  | .vector elements => !elements.isEmpty
  | .scalar _ => true
  | .chain _ => false

end Body

namespace Function

def beq (f g : Function) : Bool :=
  f.name == g.name && f.body.beq g.body

instance : BEq Function := ⟨beq⟩

/-! ## Text -/

/-- The text of an expression with its signs joined. -/
def exprText (places : Nat) (e : Expr) : List Char :=
  Signs.joined (e.text places)

/-- The elements of an array, each with the comma or bracket that follows it. -/
def vectorUnits (places : Nat) : List Expr → List (List Char)
  | [] => []
  | [e] => [exprText places e ++ [']']]
  | e :: es => (exprText places e ++ [',']) :: vectorUnits places es

/-- The lines between the brackets of an array. Only an array without elements leaves the closing
bracket to a line of its own. -/
def vectorLines (s : Settings) (elements : List Expr) : List (List Char) :=
  match Fill.fill s.textWidth (vectorUnits s.decimalPlaces elements) with
  | [] => [[']']]
  | lines => lines

def scalarLines (s : Settings) (e : Expr) : List (List Char) :=
  Fill.fillWords s.textWidth (exprText s.decimalPlaces e)

/-- Lines of a body, each after the indent. -/
def indented (indent : List Char) (lines : List (List Char)) : List Char :=
  indent ++ List.intercalate ('\n' :: indent) lines

def callText (indent : List Char) (callee : String) : List Char :=
  indent ++ "_this = _this call ".toList ++ callee.toList ++ ";\n".toList

def text (s : Settings) (f : Function) : List Char :=
  let indent := s.indent.toList
  match f.body with
  | .vector elements =>
    f.name.toList ++ " = \x7b[\n".toList ++ indented indent (vectorLines s elements) ++
      "\n\x7d;\n".toList
  | .scalar e =>
    f.name.toList ++ " = \x7b\n".toList ++ indented indent (scalarLines s e) ++ "\n\x7d;\n".toList
  | .chain callees =>
    f.name.toList ++ " = \x7b\n".toList ++ callees.flatMap (callText indent) ++ indent ++
      "_this\n\x7d;\n".toList

/-- Whether all literals of a function can have the places that are asked for. -/
def isWritable (s : Settings) (f : Function) : Bool :=
  s.decimalPlaces ≤ Literal.maxPlaces || !f.body.hasExpr

def render (s : Settings) (f : Function) : String :=
  String.ofList (f.text s)

/-- The definition of a function, if it can be written. -/
def render? (s : Settings) (f : Function) : Option String :=
  if f.isWritable s then some (f.render s) else none

/-! ## Value -/

/-- The value of a function, given the values of the functions that it calls. A chain hands each
value on to the next function. -/
def apply (call : String → Value → Except RunError Value) (f : Function) (v : Value) :
    Except RunError Value :=
  match f.body, v with
  | .vector es, .vector xs => (Expr.evalAll xs es).map .vector
  | .scalar e, .vector xs => (e.eval xs).map .scalar
  | .chain callees, v => callees.foldlM (fun v callee => call callee v) v
  | _, .scalar _ => .error (.scalarInput f.name)

end Function

end RegressionScript
