import RegressionScript.Json.Basic

/-!
# Writing JSON

Texts of values, without spaces. A number has the fewest digits that read back. It is written
positionally with at least one place, unless it is below `10 ^ -5` or at least `10 ^ 16`.
-/

namespace RegressionScript.Json.Writer

set_option autoImplicit false

/-- A digit in base sixteen, in lower case. -/
def hexDigit (d : Nat) : Char :=
  if d < 10 then Char.ofNat (48 + d) else Char.ofNat (87 + d)

def escape (c : Char) : List Char :=
  if c = '\x22' ∨ c = '\\' then ['\\', c]
  else if c = '\x08' then ['\\', 'b']
  else if c = '\t' then ['\\', 't']
  else if c = '\n' then ['\\', 'n']
  else if c = '\x0c' then ['\\', 'f']
  else if c = '\r' then ['\\', 'r']
  else if c.toNat < 32 then
    ['\\', 'u', '0', '0', hexDigit (c.toNat / 16), hexDigit (c.toNat % 16)]
  else [c]

def string (s : String) : List Char :=
  '\x22' :: (s.toList.flatMap escape ++ ['\x22'])

def natural (n : Nat) : List Char :=
  Digits.ofNat n

/-- One digit before the point, and the exponent with its sign. -/
def scientific (d : Decimal) : List Char :=
  let digits := Digits.ofNat d.digits
  let fraction := digits.drop 1
  let exponent := (digits.length : Int) - 1 + d.exponent
  digits.take 1 ++ (if fraction.isEmpty then [] else '.' :: fraction) ++
    'e' :: (if exponent < 0 then '-' else '+') :: Digits.ofNat exponent.natAbs

def magnitude (d : Decimal) : List Char :=
  let exponent := d.point - 1
  if d.digits = 0 ∨ (-5 ≤ exponent ∧ exponent ≤ 15) then
    d.positional ++ if 0 ≤ d.exponent then ['.', '0'] else []
  else scientific d

/-- A floating-point number, or null where it is not finite. -/
def float (x : Float) : List Char :=
  match Binary64.ofFloat x with
  | .finite negative significand exponent =>
    let digits := magnitude (Decimal.shortest .even significand exponent)
    if negative then '-' :: digits else digits
  | _ => "null".toList

def array (items : List (List Char)) : List Char :=
  '[' :: (List.intercalate [','] items ++ [']'])

def member (key : String) (value : List Char) : List Char :=
  string key ++ ':' :: value

def object (members : List (String × List Char)) : List Char :=
  '\x7b' :: (List.intercalate [','] (members.map fun m => member m.1 m.2) ++ ['\x7d'])

end RegressionScript.Json.Writer
