/-!
# Digits of natural numbers

How many digits a number has in a base, its decimal digits as text, and the number that a text of
decimal digits denotes.
-/

namespace RegressionScript.Digits

set_option autoImplicit false

/-- How many digits `n` has in the given base. Zero has none. -/
def width (base n : Nat) : Nat :=
  if 1 < base ∧ 0 < n then width base (n / base) + 1 else 0
termination_by n
decreasing_by exact Nat.div_lt_self (by omega) (by omega)

/-- The decimal digit of a number below ten. -/
def digit (d : Nat) : Char :=
  Char.ofNat (48 + d)

/-- Puts the last `w` decimal digits of `n` in front of `rest`. -/
def push : Nat → Nat → List Char → List Char
  | 0, _, rest => rest
  | w + 1, n, rest => push w (n / 10) (digit (n % 10) :: rest)

/-- The last `w` decimal digits of `n`, with zeros in front where `n` is shorter. -/
def padded (w n : Nat) : List Char :=
  push w n []

/-- The decimal digits of `n`, at least one and otherwise no leading zero. -/
def ofNat (n : Nat) : List Char :=
  padded (max 1 (width 10 n)) n

/-- A whole number in decimal digits, a minus sign in front of a negative one. -/
def ofInt (i : Int) : List Char :=
  if i < 0 then '-' :: ofNat i.natAbs else ofNat i.natAbs

/-- The number that a text of decimal digits denotes. -/
def value (cs : List Char) : Nat :=
  cs.foldl (fun n c => 10 * n + (c.toNat - 48)) 0

theorem push_eq_append (w n : Nat) (rest : List Char) : push w n rest = padded w n ++ rest := by
  induction w generalizing n rest with
  | zero => rfl
  | succ w ih => rw [padded, push, push, ih, ih (n / 10) [_]]; simp

theorem padded_succ (w n : Nat) : padded (w + 1) n = padded w (n / 10) ++ [digit (n % 10)] := by
  rw [padded, push, push_eq_append]

@[simp] theorem length_padded (w n : Nat) : (padded w n).length = w := by
  induction w generalizing n with
  | zero => rfl
  | succ w ih => simp [padded_succ, ih]

end RegressionScript.Digits
