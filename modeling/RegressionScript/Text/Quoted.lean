import RegressionScript.Text.Printable

/-!
# Quoted text in messages

A name inside a message stands in double quotes, and characters that would not be seen are named
by their code.
-/

namespace RegressionScript.Quoted

set_option autoImplicit false

/-- The digits of a number in base sixteen, in lower case. -/
def hex (n : Nat) : List Char :=
  Nat.toDigits 16 n

def escape (c : Char) : List Char :=
  if c = '\x00' then ['\\', '0']
  else if c = '\t' then ['\\', 't']
  else if c = '\r' then ['\\', 'r']
  else if c = '\n' then ['\\', 'n']
  else if c = '\\' ∨ c = '\x22' then ['\\', c]
  else if Printable.isShown c then [c]
  else '\\' :: 'u' :: '\x7b' :: (hex c.toNat ++ ['\x7d'])

def quote (s : String) : String :=
  String.ofList ('\x22' :: (s.toList.flatMap escape ++ ['\x22']))

end RegressionScript.Quoted
