/-!
# Words

Blank characters, and the words that blanks divide a text into.
-/

namespace RegressionScript.Words

set_option autoImplicit false

/-- Characters of the Unicode class White_Space. -/
def isBlank (c : Char) : Bool :=
  let n := c.toNat
  (0x9 ≤ n && n ≤ 0xD) || n == 0x20 || n == 0x85 || n == 0xA0 || n == 0x1680 ||
    (0x2000 ≤ n && n ≤ 0x200A) || n == 0x2028 || n == 0x2029 || n == 0x202F || n == 0x205F ||
    n == 0x3000

/-- The words of a text whose first word continues `word`, which is kept last character first. -/
def splitFrom : List Char → List Char → List (List Char)
  | [], [] => []
  | word, [] => [word.reverse]
  | word, c :: cs =>
    if isBlank c then
      match word with
      | [] => splitFrom [] cs
      | _ => word.reverse :: splitFrom [] cs
    else splitFrom (c :: word) cs

/-- The maximal runs of characters that are not blank. -/
def split (cs : List Char) : List (List Char) :=
  splitFrom [] cs

end RegressionScript.Words
