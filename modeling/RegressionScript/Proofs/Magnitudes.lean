import Mathlib.Algebra.Order.Field.Power
import Mathlib.Data.Rat.Cast.Order
import Mathlib.Tactic.FieldSimp
import Mathlib.Tactic.Linarith
import Mathlib.Tactic.Positivity
import Mathlib.Tactic.Ring
import RegressionScript.Number.Decimal
import RegressionScript.Number.Literal

/-!
# Digits and orders of magnitude

What a text of decimal digits denotes, where the order of a fraction puts it between two powers of
the base, and the decimal of a literal. That this decimal is the nearest one is not shown here.
-/

namespace RegressionScript

set_option autoImplicit false

namespace Digits

/-! ## Digits -/

theorem lt_pow_width {base : Nat} (hb : 1 < base) (n : Nat) : n < base ^ width base n := by
  induction n using Nat.strongRecOn with
  | ind n ih =>
    rw [width]
    split
    · rename_i h
      have hdiv := ih (n / base) (Nat.div_lt_self h.2 hb)
      rw [pow_succ]
      exact Nat.lt_mul_of_div_lt hdiv (by omega)
    · rename_i h
      have : n = 0 := by omega
      simp [this]

theorem pow_width_le {base : Nat} (hb : 1 < base) {n : Nat} (hn : 0 < n) :
    base ^ (width base n - 1) ≤ n := by
  induction n using Nat.strongRecOn with
  | ind n ih =>
    rw [width, if_pos ⟨hb, hn⟩, Nat.add_sub_cancel]
    by_cases hlt : n < base
    · rw [Nat.div_eq_of_lt hlt, width, if_neg (by omega), pow_zero]
      exact hn
    · have hq : 0 < n / base := Nat.div_pos (by omega) (by omega)
      have hle := ih (n / base) (Nat.div_lt_self hn hb) hq
      have hpos : 0 < width base (n / base) := by
        rw [width, if_pos ⟨hb, hq⟩]
        omega
      calc base ^ width base (n / base)
          = base ^ (width base (n / base) - 1) * base := by
            rw [← pow_succ, Nat.sub_add_cancel hpos]
        _ ≤ n / base * base := Nat.mul_le_mul_right base hle
        _ ≤ n := Nat.div_mul_le_self n base

theorem width_pos {base : Nat} (hb : 1 < base) {n : Nat} (hn : 0 < n) : 0 < width base n := by
  rw [width, if_pos ⟨hb, hn⟩]
  omega

theorem width_le_of_lt {base n k : Nat} (hb : 1 < base) (h : n < base ^ k) :
    width base n ≤ k := by
  by_contra hk
  have hn : 0 < n := by
    by_contra hn
    rw [width, if_neg (by omega)] at hk
    omega
  have hle : base ^ k ≤ base ^ (width base n - 1) := Nat.pow_le_pow_right (by omega) (by omega)
  exact absurd h (not_lt.mpr (hle.trans (pow_width_le hb hn)))

theorem toNat_digit {d : Nat} (hd : d < 10) : (digit d).toNat = 48 + d := by
  decide +revert

theorem isDigit_digit {d : Nat} (hd : d < 10) : (digit d).isDigit = true := by
  decide +revert

theorem isDigit_of_mem_padded {w n : Nat} : ∀ c ∈ padded w n, c.isDigit = true := by
  induction w generalizing n with
  | zero => simp [padded, push]
  | succ w ih =>
    intro c hc
    rw [padded_succ, List.mem_append, List.mem_singleton] at hc
    rcases hc with hc | rfl
    · exact ih c hc
    · exact isDigit_digit (Nat.mod_lt n (by decide))

theorem value_concat (cs : List Char) (c : Char) :
    value (cs ++ [c]) = 10 * value cs + (c.toNat - 48) := by
  simp [value]

/-- The last `w` digits of a number denote it up to a multiple of `10 ^ w`. -/
theorem value_padded (w n : Nat) : value (padded w n) = n % 10 ^ w := by
  induction w generalizing n with
  | zero => simp [padded, push, value, Nat.mod_one]
  | succ w ih =>
    rw [padded_succ, value_concat, ih, toNat_digit (Nat.mod_lt n (by decide)), pow_succ',
      Nat.mod_mul]
    omega

theorem value_ofNat (n : Nat) : value (ofNat n) = n := by
  have hn : n < 10 ^ width 10 n := lt_pow_width (by decide) n
  have hle : 10 ^ width 10 n ≤ 10 ^ max 1 (width 10 n) :=
    Nat.pow_le_pow_right (by decide) (Nat.le_max_right _ _)
  rw [ofNat, value_padded, Nat.mod_eq_of_lt (Nat.lt_of_lt_of_le hn hle)]

theorem ofNat_ne_nil (n : Nat) : ofNat n ≠ [] := by
  intro h
  have : (ofNat n).length = 0 := by rw [h]; rfl
  rw [ofNat, length_padded] at this
  omega

theorem digit_eq_digitChar {d : Nat} (hd : d < 10) : digit d = d.digitChar := by
  decide +revert

theorem ofNat_eq_toDigits (n : Nat) : ofNat n = Nat.toDigits 10 n := by
  induction n using Nat.strongRecOn with
  | ind n ih =>
    have hmod : n % 10 < 10 := Nat.mod_lt n (by decide)
    by_cases hn : n < 10
    · have hwidth : max 1 (width 10 n) = 1 := by
        rw [width]
        split
        · rw [Nat.div_eq_of_lt hn, width]
          simp
        · rfl
      rw [Nat.toDigits_of_lt_base hn, ofNat, hwidth, padded_succ, digit_eq_digitChar hmod,
        Nat.mod_eq_of_lt hn]
      rfl
    · have hpos := width_pos (by decide : 1 < 10) (show 0 < n / 10 by omega)
      rw [Nat.toDigits_of_base_le (by decide) (not_lt.mp hn), ← ih (n / 10) (by omega), ofNat,
        ofNat, width, if_pos ⟨by decide, by omega⟩, Nat.max_eq_right hpos,
        Nat.max_eq_right (by omega), padded_succ, digit_eq_digitChar hmod]

theorem padded_eq_cons (w n : Nat) : padded (w + 1) n = digit (n / 10 ^ w % 10) :: padded w n := by
  induction w generalizing n with
  | zero => simp [padded, push]
  | succ w ih =>
    rw [padded_succ, ih, padded_succ w n, Nat.div_div_eq_div_mul, pow_succ', List.cons_append]

/-- The first of `w + 1` digits. -/
theorem digit_eq_zero_iff {w n : Nat} (h : n < 10 ^ (w + 1)) :
    digit (n / 10 ^ w % 10) = '0' ↔ n < 10 ^ w := by
  have hdigit : n / 10 ^ w < 10 := Nat.div_lt_of_lt_mul (by rwa [← pow_succ])
  have hzero (d : Nat) (hd : d < 10) : digit d = '0' ↔ d = 0 := by
    decide +revert
  rw [Nat.mod_eq_of_lt hdigit, hzero _ hdigit, Nat.div_eq_zero_iff]
  have : 0 < 10 ^ w := Nat.pow_pos (by decide)
  omega

theorem padded_add {w n : Nat} (h : n < 10 ^ w) (k : Nat) :
    padded (k + w) n = List.replicate k '0' ++ padded w n := by
  induction k with
  | zero => simp
  | succ k ih =>
    have hzero : n / 10 ^ (k + w) = 0 := by
      apply Nat.div_eq_of_lt
      exact h.trans_le (Nat.pow_le_pow_right (by decide) (Nat.le_add_left w k))
    rw [Nat.succ_add, padded_eq_cons, hzero, ih]
    rfl

/-- At least `w` digits, and no more zeros in front than that takes. -/
theorem padded_max_width {w : Nat} (hw : 0 < w) (n : Nat) :
    padded (max w (width 10 n)) n = (Nat.toDigits 10 n).leftpad w '0' := by
  have hlt : n < 10 ^ max 1 (width 10 n) :=
    (lt_pow_width (by decide) n).trans_le (Nat.pow_le_pow_right (by decide) (Nat.le_max_right _ _))
  rw [← ofNat_eq_toDigits, List.leftpad, ofNat, length_padded, ← padded_add hlt]
  congr 1
  omega

theorem value_append (a b : List Char) : value (a ++ b) = value a * 10 ^ b.length + value b := by
  induction b using List.reverseRecOn with
  | nil => simp [value]
  | append_singleton b c ih =>
    rw [← List.append_assoc, value_concat, ih, value_concat, List.length_append,
      List.length_singleton, pow_succ]
    ring

theorem value_replicate_zero (k : Nat) : value (List.replicate k '0') = 0 := by
  induction k with
  | zero => rfl
  | succ k ih => rw [List.replicate_succ', value_concat, ih]; rfl

theorem length_ofNat (n : Nat) : (ofNat n).length = max 1 (width 10 n) :=
  length_padded _ n

theorem getLast?_ofNat {n : Nat} (h : n % 10 ≠ 0) : (ofNat n).getLast? ≠ some '0' := by
  obtain ⟨w, hw⟩ : ∃ w, max 1 (width 10 n) = w + 1 := ⟨max 1 (width 10 n) - 1, by omega⟩
  rw [ofNat, hw, padded_succ, List.getLast?_concat]
  have hzero (d : Nat) (hd : d < 10) (hne : d ≠ 0) : some (digit d) ≠ some '0' := by
    decide +revert
  exact hzero (n % 10) (Nat.mod_lt n (by decide)) h

theorem head?_ofNat {n : Nat} (h : 0 < n) : (ofNat n).head? ≠ some '0' := by
  obtain ⟨w, hw⟩ : ∃ w, width 10 n = w + 1 :=
    Nat.exists_eq_add_one_of_ne_zero (width_pos (by decide) h).ne'
  have hlow := pow_width_le (by decide : 1 < 10) h
  have hhigh := lt_pow_width (by decide : 1 < 10) n
  rw [hw] at hlow hhigh
  rw [ofNat, hw, Nat.max_eq_right (Nat.le_add_left 1 w), padded_eq_cons, List.head?_cons, ne_eq,
    Option.some.injEq, digit_eq_zero_iff hhigh]
  exact not_lt.mpr hlow

end Digits

namespace Fraction

/-! ## Orders of magnitude -/

def toRat (x : Fraction) : ℚ :=
  x.num / x.den

theorem toRat_nonneg (x : Fraction) : 0 ≤ x.toRat := by
  rw [toRat]
  positivity

theorem toRat_eq_zero_iff {x : Fraction} (hd : 0 < x.den) : x.toRat = 0 ↔ x.num = 0 := by
  simp [toRat, hd.ne']

theorem le_iff {x y : Fraction} (hx : 0 < x.den) (hy : 0 < y.den) :
    x.le y = true ↔ x.toRat ≤ y.toRat := by
  have hx' : (0 : ℚ) < x.den := by exact_mod_cast hx
  have hy' : (0 : ℚ) < y.den := by exact_mod_cast hy
  rw [le, decide_eq_true_eq, toRat, toRat, div_le_div_iff₀ hx' hy']
  norm_cast

theorem lt_iff {x y : Fraction} (hx : 0 < x.den) (hy : 0 < y.den) :
    x.lt y = true ↔ x.toRat < y.toRat := by
  have hx' : (0 : ℚ) < x.den := by exact_mod_cast hx
  have hy' : (0 : ℚ) < y.den := by exact_mod_cast hy
  rw [lt, decide_eq_true_eq, toRat, toRat, div_lt_div_iff₀ hx' hy']
  norm_cast

theorem toRat_scale {base : Nat} (hb : 0 < base) (k : Int) (x : Fraction) :
    (x.scale base k).toRat = x.toRat * (base : ℚ) ^ k := by
  have hbase : (base : ℚ) ≠ 0 := by exact_mod_cast hb.ne'
  have hk : (base : ℚ) ^ k = (base : ℚ) ^ k.toNat / (base : ℚ) ^ (-k).toNat := by
    rw [← zpow_natCast, ← zpow_natCast, ← zpow_sub₀ hbase]
    congr 1
    omega
  simp only [toRat, scale, Nat.pow_eq, Nat.cast_mul, Nat.cast_pow, hk]
  rw [mul_div_mul_comm]

theorem lt_of_toRat_lt {x : Fraction} (hd : 0 < x.den) {n : Nat} (h : x.toRat < n) :
    x.floor < n := by
  have hden : (0 : ℚ) < x.den := by exact_mod_cast hd
  rw [toRat, div_lt_iff₀ hden] at h
  exact Nat.div_lt_of_lt_mul (by rw [mul_comm]; exact_mod_cast h)

theorem order_spec {base : Nat} (hb : 1 < base) {x : Fraction} (hn : 0 < x.num) (hd : 0 < x.den) :
    (base : ℚ) ^ x.order base ≤ x.toRat ∧ x.toRat < (base : ℚ) ^ (x.order base + 1) := by
  have hden : (0 : ℚ) < x.den := by exact_mod_cast hd
  have hbase : (0 : ℚ) < base := by exact_mod_cast Nat.lt_trans Nat.zero_lt_one hb
  unfold order
  split
  · rename_i hle
    have hq : 0 < x.num / x.den := Nat.div_pos hle hd
    have hw := Digits.width_pos hb hq
    have hlow : base ^ (Digits.width base (x.num / x.den) - 1) * x.den ≤ x.num :=
      (Nat.le_div_iff_mul_le hd).mp (Digits.pow_width_le hb hq)
    have hhigh : x.num < base ^ Digits.width base (x.num / x.den) * x.den :=
      (Nat.div_lt_iff_lt_mul hd).mp (Digits.lt_pow_width hb _)
    rw [toRat, le_div_iff₀ hden, div_lt_iff₀ hden]
    constructor
    · rw [← Nat.cast_pred hw, zpow_natCast]
      exact_mod_cast hlow
    · rw [sub_add_cancel, zpow_natCast]
      exact_mod_cast hhigh
  · rename_i hlt
    -- below one it is the reciprocal that has digits, rounded up
    have hq : 0 < (x.den - 1) / x.num := Nat.div_pos (by omega) hn
    have hw := Digits.width_pos hb hq
    have hlow : base ^ (Digits.width base ((x.den - 1) / x.num) - 1) * x.num < x.den := by
      have := (Nat.le_div_iff_mul_le hn).mp (Digits.pow_width_le hb hq)
      omega
    have hhigh : x.den ≤ base ^ Digits.width base ((x.den - 1) / x.num) * x.num := by
      have := (Nat.div_lt_iff_lt_mul hn).mp (Digits.lt_pow_width hb ((x.den - 1) / x.num))
      omega
    generalize Digits.width base ((x.den - 1) / x.num) = w at *
    have hsucc : -(w : Int) + 1 = -((w - 1 : Nat) : Int) := by omega
    rw [hsucc, zpow_neg, zpow_neg, zpow_natCast, zpow_natCast, toRat]
    constructor
    · rw [inv_le_iff_one_le_mul₀ (by positivity), div_mul_eq_mul_div, le_div_iff₀ hden, one_mul,
        mul_comm]
      exact_mod_cast hhigh
    · rw [lt_inv_comm₀ (by positivity) (by positivity), inv_div, lt_div_iff₀ (by positivity)]
      exact_mod_cast hlow

theorem round_le {x : Fraction} (hd : 0 < x.den) {n : Nat} (h : x.toRat < n) : x.round ≤ n := by
  have hfloor := lt_of_toRat_lt hd h
  unfold round
  split
  · omega
  · omega
  · split <;> omega

end Fraction

def Decimal.toRat (d : Decimal) : ℚ :=
  d.digits * 10 ^ d.exponent

namespace Literal

/-! ## Literals -/

theorem scientific_lt (places : Nat) {x : Fraction} (hd : 0 < x.den) :
    (scientific places x).1 < 10 ^ (places + 1) := by
  unfold scientific
  split
  · exact Nat.pow_pos (by decide)
  · rename_i hn
    have horder := (Fraction.order_spec (by decide : 1 < 10) (Nat.pos_of_ne_zero hn) hd).2
    have hscaled : (x.scale 10 (places - x.order 10)).toRat < (10 ^ (places + 1) : Nat) := by
      rw [Fraction.toRat_scale (by decide)]
      calc x.toRat * ((10 : Nat) : ℚ) ^ ((places : Int) - x.order 10)
          < ((10 : Nat) : ℚ) ^ (x.order 10 + 1) *
              ((10 : Nat) : ℚ) ^ ((places : Int) - x.order 10) :=
            mul_lt_mul_of_pos_right horder (by positivity)
        _ = (10 ^ (places + 1) : Nat) := by
            rw [← zpow_add₀ (by norm_num), Nat.cast_pow, ← zpow_natCast]
            congr 1
            push_cast
            ring
    have hden : 0 < (x.scale 10 (places - x.order 10)).den :=
      Nat.mul_pos hd (Nat.pow_pos (by decide))
    have hround := Fraction.round_le hden hscaled
    simp only [Nat.pow_eq]
    split
    · exact Nat.pow_lt_pow_right (by decide) (Nat.lt_succ_self places)
    · rename_i hne
      exact Nat.lt_of_le_of_ne hround hne

def sign (negative : Bool) : ℚ :=
  if negative then -1 else 1

theorem abs_sign_mul (negative : Bool) (x : ℚ) : |sign negative * x| = |x| := by
  cases negative <;> simp [sign]

theorem sign_mul_eq_zero_iff (negative : Bool) (x : ℚ) : sign negative * x = 0 ↔ x = 0 := by
  cases negative <;> simp [sign]

/-- The decimal that a magnitude is rounded to. -/
def rounded (places : Nat) (x : Fraction) : Decimal :=
  ⟨(scientific places x).1, (scientific places x).2 - places⟩

/-- The decimal that is written for a finite value. -/
def decimal (places : Nat) (value : Float) : ℚ :=
  match Binary64.ofFloat value with
  | .finite negative significand exponent =>
    let (digits, order) := scientific places (Binary64.magnitude significand exponent)
    sign negative * (digits * 10 ^ (order - places))
  | _ => 0

end Literal

namespace Binary64

/-! ## Exact values -/

/-- The exact value of a finite number. -/
def toRat : Binary64 → ℚ
  | .finite negative significand exponent => Literal.sign negative * (significand * 2 ^ exponent)
  | _ => 0

theorem toRat_magnitude (significand : Nat) (exponent : Int) :
    (magnitude significand exponent).toRat = significand * 2 ^ exponent := by
  rw [magnitude, Fraction.toRat_scale (by decide)]
  simp [Fraction.toRat]

theorem den_magnitude_pos (significand : Nat) (exponent : Int) :
    0 < (magnitude significand exponent).den :=
  Nat.mul_pos Nat.one_pos (Nat.pow_pos (by decide))

end Binary64

end RegressionScript
