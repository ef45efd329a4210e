import RegressionScript.Program.Function

/-!
# Programs

A program is a list of functions in the order of their definitions. Functions are added at the
end; a new one has a new name and calls only functions that are there.
-/

namespace RegressionScript

set_option autoImplicit false

/-- Why a function cannot be added to a program. -/
inductive DefinitionError where
  | redefined (name : String)
  | callsUndefined (caller callee : String)
deriving DecidableEq

def DefinitionError.message : DefinitionError → String
  | .redefined name => s!"function {Quoted.quote name} is defined more than once"
  | .callsUndefined caller callee =>
    s!"function {Quoted.quote caller} calls {Quoted.quote callee} before it is defined"

structure Program where
  functions : List Function

namespace Program

def empty : Program := ⟨[]⟩

def names (p : Program) : List String :=
  p.functions.map Function.name

/-- The first function of a name. -/
def get? (p : Program) (name : String) : Option Function :=
  p.functions.find? fun f => f.name == name

def defines (p : Program) (name : String) : Bool :=
  (p.get? name).isSome

/-- The function that was defined last. -/
def entry? (p : Program) : Option Function :=
  p.functions.getLast?

def beq (p q : Program) : Bool :=
  p.functions == q.functions

instance : BEq Program := ⟨beq⟩

/-- Adds a function at the end, or says why it is refused. A program that refuses stays as it is. -/
def push (p : Program) (f : Function) : Program × Option DefinitionError :=
  if p.defines f.name then (p, some (.redefined f.name))
  else
    match f.body.callees.find? fun callee => !p.defines callee with
    | some callee => (p, some (.callsUndefined f.name callee))
    | none => (⟨p.functions ++ [f]⟩, none)

/-- Adds functions one by one up to the first that is refused. The program keeps those that were
added before it. -/
def pushAll (p : Program) : List Function → Program × Option DefinitionError
  | [] => (p, none)
  | f :: fs =>
    match p.push f with
    | (q, none) => q.pushAll fs
    | (q, some e) => (q, some e)

/-- Adds the functions of another program one by one. -/
def extend (p q : Program) : Program × Option DefinitionError :=
  p.pushAll q.functions

/-- What an addition leaves behind, if nothing was refused. -/
def accepted : Program × Option DefinitionError → Except DefinitionError Program
  | (p, none) => .ok p
  | (_, some e) => .error e

/-- Both programs in one, if none of the functions is refused. -/
def append (p q : Program) : Except DefinitionError Program :=
  accepted (p.extend q)

/-- Whether functions call only names that are known or defined before them. -/
def orderedFrom (known : List String) : List Function → Bool
  | [] => true
  | f :: fs => f.body.callees.all (known.contains ·) && orderedFrom (f.name :: known) fs

/-- Whether every call goes to a function that is defined earlier. -/
def isOrdered (p : Program) : Bool :=
  orderedFrom [] p.functions

/-- The definitions in order, a blank line between two of them. -/
def render (s : Settings) (p : Program) : String :=
  String.ofList (List.intercalate ['\n'] (p.functions.map (Function.text s)))

/-- The text of a program, if all of its functions can be written. -/
def render? (s : Settings) (p : Program) : Option String :=
  if p.functions.all (Function.isWritable s) then some (p.render s) else none

end Program

end RegressionScript
