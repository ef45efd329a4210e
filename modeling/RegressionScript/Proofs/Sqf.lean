import RegressionScript.Json.Reader
import RegressionScript.Name
import RegressionScript.Proofs.Magnitudes
import RegressionScript.Text.Words

/-!
# Reading SQF

A reader for the part of the language that generated code is written in: definitions of functions
whose body is an array, an expression, or a sequence of calls that ends in `_this`. Blanks only
separate tokens. Of the operators `^` binds tighter than `*` and `/`, and these tighter than `+` and
`-`; operators of the same rank are taken from left to right. The reader knows nothing of how the
code came about.
-/

namespace RegressionScript.Sqf

set_option autoImplicit false

/-! ## Tokens -/

/-- A name or number is one token, and so is every other character that is not blank. -/
inductive Token where
  | text (chars : String)
  | symbol (c : Char)
deriving DecidableEq

/-- Whether a character belongs to the text before it, which is kept last character first. A number
goes on after its point and after the sign of its exponent. -/
def continues (chunk : List Char) (c : Char) : Bool :=
  match chunk.getLast? with
  | none => false
  | some first =>
    Name.isWordChar c ||
      first.isDigit && (c == '.' || (c == '+' || c == '-') && chunk.head? == some 'e')

def flush (chunk : List Char) : List Token :=
  match chunk with
  | [] => []
  | _ => [.text (String.ofList chunk.reverse)]

def lexFrom : List Char → List Char → List Token
  | chunk, [] => flush chunk
  | chunk, c :: cs =>
    if continues chunk c then lexFrom (c :: chunk) cs
    else if Name.isWordChar c then flush chunk ++ lexFrom [c] cs
    else if Words.isBlank c then flush chunk ++ lexFrom [] cs
    else flush chunk ++ .symbol c :: lexFrom [] cs

def lex (cs : List Char) : List Token :=
  lexFrom [] cs

/-- A number without sign, fraction and exponent. -/
def natural? (s : String) : Option Nat :=
  if s.toList ≠ [] ∧ s.toList.all Char.isDigit then some (Digits.value s.toList) else none

/-- A number without sign. -/
def decimal? (s : String) : Option Decimal := do
  let (whole, cs) ← Json.Reader.digits1? s.toList
  let (fraction, cs) ← Json.Reader.fraction? cs
  let (exponent, cs) ← Json.Reader.exponent? cs
  let places := fraction.getD []
  if cs = [] then some ⟨Digits.value (whole ++ places), exponent.getD 0 - places.length⟩ else none

/-! ## Expressions -/

inductive Formula where
  | number (negative : Bool) (magnitude : Decimal)
  | input (index : Nat)
  | power (base : Formula) (exponent : Nat)
  | times (left right : Formula)
  | over (left right : Formula)
  | plus (left right : Formula)
  | minus (left right : Formula)
deriving DecidableEq

/-- The value in exact arithmetic, where `quotient` says what a division gives. -/
def Formula.value (quotient : ℚ → ℚ → ℚ) (x : Nat → ℚ) : Formula → ℚ
  | .number negative magnitude => Literal.sign negative * magnitude.toRat
  | .input i => x i
  | .power b n => b.value quotient x ^ n
  | .times l r => l.value quotient x * r.value quotient x
  | .over l r => quotient (l.value quotient x) (r.value quotient x)
  | .plus l r => l.value quotient x + r.value quotient x
  | .minus l r => l.value quotient x - r.value quotient x

/-- What is done with the next factor and with the next term at one level of parentheses. -/
structure Pending where
  term : Formula → Formula
  factor : Formula → Formula

def Pending.start : Pending := ⟨id, id⟩

def Pending.close (p : Pending) (f : Formula) : Formula :=
  p.term (p.factor f)

mutual

/-- Reads on where an operand has to follow. The levels around this one wait in `outer`. -/
def operand (outer : List Pending) (p : Pending) :
    List Token → Option (Formula × List Token)
  | .symbol '(' :: .text "_this" :: .symbol '#' :: .text i :: .symbol ')' :: ts => do
    let i ← natural? i
    operator outer p (.input i) ts
  | .symbol '(' :: ts => operand (p :: outer) .start ts
  | .symbol '-' :: .text n :: ts => do
    let d ← decimal? n
    operator outer p (.number true d) ts
  | .text n :: ts => do
    let d ← decimal? n
    operator outer p (.number false d) ts
  | _ => none

/-- Reads on after an operand. What cannot follow it is left over, at the outermost level only. -/
def operator (outer : List Pending) (p : Pending) (f : Formula) :
    List Token → Option (Formula × List Token)
  | .symbol '^' :: .text n :: ts => do
    let n ← natural? n
    operator outer p (.power f n) ts
  | .symbol '*' :: ts => operand outer ⟨p.term, .times (p.factor f)⟩ ts
  | .symbol '/' :: ts => operand outer ⟨p.term, .over (p.factor f)⟩ ts
  | .symbol '+' :: ts => operand outer ⟨.plus (p.close f), id⟩ ts
  | .symbol '-' :: ts => operand outer ⟨.minus (p.close f), id⟩ ts
  | .symbol ')' :: ts =>
    match outer with
    | q :: outer => operator outer q (p.close f) ts
    | [] => some (p.close f, .symbol ')' :: ts)
  | ts =>
    match outer with
    | _ :: _ => none
    | [] => some (p.close f, ts)

end

def formula? (ts : List Token) : Option (Formula × List Token) :=
  operand [] .start ts

/-! ## Definitions -/

inductive Body where
  | array (elements : List Formula)
  | value (formula : Formula)
  | calls (functions : List String)
deriving DecidableEq

structure Definition where
  name : String
  body : Body
deriving DecidableEq

/-- The elements of an array that has some, and its closing bracket. -/
def elements? : Nat → List Token → Option (List Formula × List Token)
  | 0, _ => none
  | fuel + 1, ts => do
    let (f, ts) ← formula? ts
    match ts with
    | .symbol ',' :: ts => do
      let (fs, rest) ← elements? fuel ts
      some (f :: fs, rest)
    | .symbol ']' :: ts => some ([f], ts)
    | _ => none

/-- An array after its opening bracket. -/
def array? : List Token → Option (List Formula × List Token)
  | .symbol ']' :: ts => some ([], ts)
  | ts => elements? ts.length ts

/-- Calls that hand `_this` on, and the `_this` that ends them. -/
def calls? : List Token → Option (List String × List Token)
  | .text "_this" :: .symbol '=' :: .text "_this" :: .text "call" :: .text f :: .symbol ';' :: ts =>
    if Name.isIdentifier f then do
      let (fs, rest) ← calls? ts
      some (f :: fs, rest)
    else none
  | .text "_this" :: ts => some ([], ts)
  | _ => none

def body? : List Token → Option (Body × List Token)
  | .symbol '[' :: ts => (array? ts).map fun (fs, rest) => (.array fs, rest)
  | .text "_this" :: ts => (calls? (.text "_this" :: ts)).map fun (fs, rest) => (.calls fs, rest)
  | ts => (formula? ts).map fun (f, rest) => (.value f, rest)

def definition? : List Token → Option (Definition × List Token)
  | .text name :: .symbol '=' :: .symbol '\x7b' :: ts =>
    if Name.isIdentifier name then do
      let (body, ts) ← body? ts
      match ts with
      | .symbol '\x7d' :: .symbol ';' :: ts => some (⟨name, body⟩, ts)
      | _ => none
    else none
  | _ => none

def definitions? : Nat → List Token → Option (List Definition)
  | _, [] => some []
  | 0, _ :: _ => none
  | fuel + 1, ts => do
    let (d, ts) ← definition? ts
    let ds ← definitions? fuel ts
    some (d :: ds)

/-- The definitions that a text consists of. Each of them has tokens, so that the number of tokens
bounds their number. -/
def parse? (code : String) : Option (List Definition) :=
  let ts := lex code.toList
  definitions? ts.length ts

end RegressionScript.Sqf
