import Mathlib
import RegressionScript.Expr.Eval
import RegressionScript.Proofs.Formulas

/-!
# Powers

A power is computed from repeated squares of its base, one for each set bit of the exponent. In exact
arithmetic their product is the power to that exponent. The evaluation takes the highest bit of the
exponent for a sign, the text does not, so that the value is the power in the text only for exponents
below `2 ^ 31`. From there on it is the reciprocal of another power.
-/

namespace RegressionScript

set_option autoImplicit false

namespace Power

/-! ## Repeated squares -/

section Squares

variable {α : Type} [Mul α]

/-- `r` times the repeated squares of `x` for the set bits of `n`, the lowest bit first. -/
def bySquares (r x : α) (n : Nat) : α :=
  n.bitIndices.foldl (fun acc i => acc * (fun a => a * a)^[i] x) r

@[simp] theorem bySquares_zero (r x : α) : bySquares r x 0 = r := by
  rw [bySquares, Nat.bitIndices_zero, List.foldl_nil]

@[simp] theorem bySquares_two_mul (r x : α) (n : Nat) :
    bySquares r x (2 * n) = bySquares r (x * x) n := by
  rw [bySquares, Nat.bitIndices_two_mul, List.foldl_map]
  rfl

@[simp] theorem bySquares_two_mul_add_one (r x : α) (n : Nat) :
    bySquares r x (2 * n + 1) = bySquares (r * x) (x * x) n := by
  rw [bySquares, Nat.bitIndices_two_mul_add_one, List.foldl_cons, List.foldl_map]
  rfl

theorem bySquares_of_mul_eq {r x : α} (hr : r * x = r) (hx : x * x = x) (n : Nat) :
    bySquares r x n = r := by
  induction n using Nat.evenOddRec with
  | h0 => exact bySquares_zero r x
  | h_even n ih => rw [bySquares_two_mul, hx, ih]
  | h_odd n ih => rw [bySquares_two_mul_add_one, hr, hx, ih]

theorem bySquares_eq_mul_pow {M : Type} [Monoid M] (r x : M) (n : Nat) :
    bySquares r x n = r * x ^ n := by
  induction n using Nat.evenOddRec generalizing r x with
  | h0 => rw [bySquares_zero, pow_zero, mul_one]
  | h_even n ih => rw [bySquares_two_mul, ih, ← pow_two, ← pow_mul]
  | h_odd n ih => rw [bySquares_two_mul_add_one, ih, ← pow_two, ← pow_mul, mul_assoc, ← pow_succ']

end Squares

/-! ## The loop -/

theorem times_zero (r x : Float) : times r x 0 = r := by
  rw [times]
  simp

/-- One turn of the loop. After the last bit another turn would change nothing. -/
theorem times_eq (r x : Float) (n : Nat) :
    times r x n = times (if n % 2 = 1 then r * x else r) (x * x) (n / 2) := by
  rw [times]
  split
  · rename_i hlast
    rw [hlast, times_zero]
  · rfl

theorem times_eq_bySquares (r x : Float) (n : Nat) : times r x n = bySquares r x n := by
  induction n using Nat.evenOddRec generalizing r x with
  | h0 => rw [times_zero, bySquares_zero]
  | h_even n ih =>
    have hbit : ¬ 2 * n % 2 = 1 := by omega
    have hrest : 2 * n / 2 = n := by omega
    rw [times_eq, if_neg hbit, hrest, ih, bySquares_two_mul]
  | h_odd n ih =>
    have hbit : (2 * n + 1) % 2 = 1 := by omega
    have hrest : (2 * n + 1) / 2 = n := by omega
    rw [times_eq, if_pos hbit, hrest, ih, bySquares_two_mul_add_one]

theorem toInt_toInt32 (n : UInt32) :
    n.toInt32.toInt = if n.toNat < 2 ^ 31 then (n.toNat : Int) else n.toNat - 2 ^ 32 := by
  change n.toBitVec.toInt = _
  rw [BitVec.toInt_eq_toNat_cond, UInt32.toNat_toBitVec]
  split <;> split <;> omega

/-- From `2 ^ 31` on an exponent counts as negative. -/
theorem word_eq (x : Float) (n : UInt32) :
    word x n =
      if n.toNat < 2 ^ 31 then bySquares 1.0 x n.toNat
      else 1.0 / bySquares 1.0 x (2 ^ 32 - n.toNat) := by
  have hlt := n.toNat_lt
  rw [word, integer, natural, times_eq_bySquares, toInt_toInt32]
  by_cases hn : n.toNat < 2 ^ 31
  · rw [if_pos hn, if_pos hn, if_neg (by omega), Int.natAbs_natCast]
  · have habs : ((n.toNat : Int) - 2 ^ 32).natAbs = 2 ^ 32 - n.toNat := by omega
    rw [if_neg hn, if_neg hn, if_pos (by omega), habs]

theorem bySquares_zero_base {n : Nat} (hn : n ≠ 0) : bySquares 1.0 (0.0 : Float) n = 0.0 := by
  have hzero : (0.0 : Float) * 0.0 = 0.0 := by decide
  have hone : (1.0 : Float) * 0.0 = 0.0 := by decide
  induction n using Nat.evenOddRec with
  | h0 => exact absurd rfl hn
  | h_even n ih => rw [bySquares_two_mul, hzero, ih (by omega)]
  | h_odd n ih => rw [bySquares_two_mul_add_one, hone, hzero, bySquares_of_mul_eq hzero hzero]

/-- A power of zero is zero, but the reciprocal of one is infinite. -/
theorem word_zero_base_ne {n : UInt32} (hn : ¬ n.toNat < 2 ^ 31) :
    word 0.0 n ≠ bySquares 1.0 0.0 n.toNat := by
  have hlt := n.toNat_lt
  rw [word_eq, if_neg hn, bySquares_zero_base (by omega), bySquares_zero_base (by omega)]
  decide

end Power

/-! ## Text and value -/

namespace Expr

theorem eval_pow (base : Expr) (n : UInt32) (xs : List Float) :
    (pow base n).eval xs = (base.eval xs).map fun b => Power.word b n := by
  rw [eval]
  cases base.eval xs <;> rfl

theorem text_pow_eq_iff {base : Expr} {n : UInt32} {places : Nat} {digits : List Char} :
    (pow base n).text places = base.text places ++ '^' :: digits ↔
      digits = Digits.ofNat n.toNat := by
  rw [text, List.append_cancel_left_eq, List.cons.injEq, and_iff_right rfl, eq_comm]

/-- The value of a power is its base raised to the exponent that stands in the text. -/
def RaisedAsWritten (n : UInt32) : Prop :=
  ∀ (base : Expr) (places : Nat) (xs : List Float) (b : Float), base.eval xs = .ok b →
    ∃ digits exponent, (pow base n).text places = base.text places ++ '^' :: digits ∧
      Sqf.natural? (String.ofList digits) = some exponent ∧
      (pow base n).eval xs = .ok (Power.bySquares 1.0 b exponent)

theorem raisedAsWritten_iff {n : UInt32} :
    RaisedAsWritten n ↔ ∀ b, Power.word b n = Power.bySquares 1.0 b n.toNat := by
  constructor
  · intro h b
    obtain ⟨digits, exponent, htext, hexponent, heval⟩ := h (.const b) 0 [] b rfl
    rw [text_pow_eq_iff.mp htext, Sqf.natural?_ofNat] at hexponent
    cases hexponent
    exact Except.ok.inj heval
  · intro h base places xs b hb
    refine ⟨_, _, text_pow_eq_iff.mpr rfl, Sqf.natural?_ofNat _, ?_⟩
    rw [eval_pow, hb, ← h b]
    rfl

/-- A power has the value that its text shows exactly if the exponent is below `2 ^ 31`, and from
there on it is a reciprocal. In exact arithmetic it is the power that the text shows for every
exponent. -/
theorem raised_as_written_below_sign_bit (n : UInt32) :
    (RaisedAsWritten n ↔ n.toNat < 2 ^ 31) ∧
      (∀ base xs, (pow base n).eval xs = (base.eval xs).map fun b =>
        if n.toNat < 2 ^ 31 then Power.bySquares 1.0 b n.toNat
        else 1.0 / Power.bySquares 1.0 b (2 ^ 32 - n.toNat)) ∧
      ∀ base quotient constant x, (pow base n).exact quotient constant x =
        Power.bySquares 1 (base.exact quotient constant x) n.toNat := by
  refine ⟨?_, ?_, ?_⟩
  · rw [raisedAsWritten_iff]
    constructor
    · intro h
      -- The base zero shows the difference for all of these exponents.
      by_contra hn
      exact Power.word_zero_base_ne hn (h 0.0)
    · intro hn b
      rw [Power.word_eq, if_pos hn]
  · intro base xs
    simp only [eval_pow, Power.word_eq]
  · intro base quotient constant x
    rw [exact, Power.bySquares_eq_mul_pow, one_mul]

/-- The highest exponent counts as minus one. The value is a half, where the power in the text is
beyond all finite numbers. -/
theorem highest_exponent_halves :
    (pow (input 0) 4294967295).text 6 = "(_this#0)^4294967295".toList ∧
      (pow (input 0) 4294967295).eval [2.0] = .ok 0.5 ∧
      Power.bySquares 1.0 2.0 4294967295 = (1.0 / 0.0 : Float) ∧
      ¬ RaisedAsWritten 4294967295 := by
  have hvalue : Power.word 2.0 4294967295 = 0.5 := by decide +kernel
  have hwritten : Power.bySquares 1.0 2.0 4294967295 = (1.0 / 0.0 : Float) := by decide +kernel
  refine ⟨by decide +kernel, ?_, hwritten, ?_⟩
  · rw [eval_pow, ← hvalue]
    rfl
  · intro h
    have hequal := raisedAsWritten_iff.mp h 2.0
    rw [hvalue, show (4294967295 : UInt32).toNat = 4294967295 from rfl, hwritten] at hequal
    exact absurd hequal (by decide)

end Expr

end RegressionScript
