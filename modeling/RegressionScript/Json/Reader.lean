import RegressionScript.Json.Basic

/-!
# Reading JSON

The grammar, one function for each of its parts. A reader takes what it can from the front of a
text and returns the rest.
-/

namespace RegressionScript.Json.Reader

set_option autoImplicit false

def isBlank (c : Char) : Bool :=
  c == ' ' || c == '\n' || c == '\t' || c == '\r'

def skipBlanks (cs : List Char) : List Char :=
  cs.dropWhile isBlank

/-! ## Numbers -/

/-- The digits at the front of a text, of which there is at least one. -/
def digits1? (cs : List Char) : Option (List Char × List Char) :=
  match cs.takeWhile Char.isDigit with
  | [] => none
  | ds => some (ds, cs.dropWhile Char.isDigit)

/-- The digits of a whole number, without leading zero. -/
def whole? (cs : List Char) : Option (List Char × List Char) :=
  match digits1? cs with
  | some ('0' :: _ :: _, _) => none
  | result => result

/-- The digits after a point, if there is one. -/
def fraction? : List Char → Option (Option (List Char) × List Char)
  | '.' :: cs => (digits1? cs).map fun (ds, rest) => (some ds, rest)
  | cs => some (none, cs)

/-- Digits of a fraction without the zeros at their end. -/
def trimmed (ds : List Char) : List Char :=
  (ds.reverse.dropWhile (· == '0')).reverse

/-- An exponent, if one is written. -/
def exponent? : List Char → Option (Option Int × List Char)
  | c :: cs =>
    if c = 'e' ∨ c = 'E' then
      let (negative, cs) :=
        match cs with
        | '-' :: cs => (true, cs)
        | '+' :: cs => (false, cs)
        | cs => (false, cs)
      match digits1? cs with
      | some (ds, rest) =>
        let n : Int := Digits.value ds
        some (some (if negative then -n else n), rest)
      | none => none
    else some (none, c :: cs)
  | [] => some (none, [])

/-- A number without its sign. -/
def unsigned? (negative : Bool) (cs : List Char) : Option (Json × List Char) := do
  let (whole, cs) ← whole? cs
  let (fraction, cs) ← fraction? cs
  let (exponent, cs) ← exponent? cs
  let places := trimmed (fraction.getD [])
  let magnitude := ⟨Digits.value (whole ++ places), exponent.getD 0 - places.length⟩
  some (.number negative magnitude (fraction.isNone && exponent.isNone), cs)

/-! ## Strings -/

def hexDigit? (c : Char) : Option Nat :=
  if c.isDigit then some (c.toNat - 48)
  else if 97 ≤ c.toNat ∧ c.toNat ≤ 102 then some (c.toNat - 87)
  else if 65 ≤ c.toNat ∧ c.toNat ≤ 70 then some (c.toNat - 55)
  else none

/-- The code of four digits in base sixteen. -/
def hex4? (a b c d : Char) : Option Nat := do
  some (4096 * (← hexDigit? a) + 256 * (← hexDigit? b) + 16 * (← hexDigit? c) + (← hexDigit? d))

/-- The code of the character that an escaped letter stands for. -/
def escape? (c : Char) : Option Nat :=
  if c = '\x22' ∨ c = '\\' ∨ c = '/' then some c.toNat
  else if c = 'b' then some 8
  else if c = 'f' then some 12
  else if c = 'n' then some 10
  else if c = 'r' then some 13
  else if c = 't' then some 9
  else none

/-- The codes in a string after its opening quote, up to the closing one. -/
def codes? : List Char → Option (List Nat × List Char)
  | [] => none
  | '\x22' :: cs => some ([], cs)
  | '\\' :: 'u' :: a :: b :: c :: d :: cs => do
    let code ← hex4? a b c d
    let (codes, rest) ← codes? cs
    some (code :: codes, rest)
  | '\\' :: c :: cs => do
    let code ← escape? c
    let (codes, rest) ← codes? cs
    some (code :: codes, rest)
  | c :: cs =>
    if c.toNat < 32 ∨ c = '\\' then none
    else do
      let (codes, rest) ← codes? cs
      some (c.toNat :: codes, rest)

def isHighSurrogate (code : Nat) : Bool :=
  0xD800 ≤ code && code < 0xDC00

def isLowSurrogate (code : Nat) : Bool :=
  0xDC00 ≤ code && code < 0xE000

/-- The characters that codes stand for. Surrogates make a character in pairs only. -/
def decode? : List Nat → Option (List Char)
  | [] => some []
  | high :: low :: codes =>
    if isHighSurrogate high then
      if isLowSurrogate low then
        (decode? codes).map
          (Char.ofNat (0x10000 + 0x400 * (high - 0xD800) + (low - 0xDC00)) :: ·)
      else none
    else if isLowSurrogate high then none
    else (decode? (low :: codes)).map (Char.ofNat high :: ·)
  | [code] => if isHighSurrogate code || isLowSurrogate code then none else some [Char.ofNat code]

/-- A string after its opening quote. -/
def string? (cs : List Char) : Option (Option String × List Char) := do
  let (codes, rest) ← codes? cs
  some ((decode? codes).map String.ofList, rest)

/-! ## Values -/

mutual

def value? : Nat → List Char → Option (Json × List Char)
  | 0, _ => none
  | fuel + 1, cs =>
    match skipBlanks cs with
    | 'n' :: 'u' :: 'l' :: 'l' :: cs => some (.null, cs)
    | 't' :: 'r' :: 'u' :: 'e' :: cs => some (.bool true, cs)
    | 'f' :: 'a' :: 'l' :: 's' :: 'e' :: cs => some (.bool false, cs)
    | '\x22' :: cs => do
      let (text, rest) ← string? cs
      some (.string text, rest)
    | '[' :: cs =>
      match skipBlanks cs with
      | ']' :: rest => some (.array [], rest)
      | cs => do
        let (items, rest) ← items? fuel cs
        some (.array items, rest)
    | '\x7b' :: cs =>
      match skipBlanks cs with
      | '\x7d' :: rest => some (.object [], rest)
      | cs => do
        let (members, rest) ← members? fuel cs
        some (.object members, rest)
    | '-' :: cs => unsigned? true cs
    | cs => unsigned? false cs

/-- The items of an array that has some, and its closing bracket. -/
def items? : Nat → List Char → Option (List Json × List Char)
  | 0, _ => none
  | fuel + 1, cs => do
    let (item, cs) ← value? fuel cs
    match skipBlanks cs with
    | ']' :: rest => some ([item], rest)
    | ',' :: cs => do
      let (items, rest) ← items? fuel cs
      some (item :: items, rest)
    | _ => none

/-- The members of an object that has some, and its closing brace. -/
def members? : Nat → List Char → Option (List (Option String × Json) × List Char)
  | 0, _ => none
  | fuel + 1, cs =>
    match skipBlanks cs with
    | '\x22' :: cs => do
      let (key, cs) ← string? cs
      match skipBlanks cs with
      | ':' :: cs => do
        let (value, cs) ← value? fuel cs
        match skipBlanks cs with
        | '\x7d' :: rest => some ([(key, value)], rest)
        | ',' :: cs => do
          let (members, rest) ← members? fuel cs
          some ((key, value) :: members, rest)
        | _ => none
      | _ => none
    | _ => none

end

end RegressionScript.Json.Reader

namespace RegressionScript.Json

/-- The value that a text holds. Every step of the reader that opens a bracket or follows a comma
uses up a character, so that twice the length of the text bounds the number of steps. -/
def parse? (text : String) : Option Json :=
  let cs := text.toList
  match Reader.value? (2 * cs.length + 2) cs with
  | some (value, rest) => if Reader.skipBlanks rest = [] then some value else none
  | none => none

end RegressionScript.Json
