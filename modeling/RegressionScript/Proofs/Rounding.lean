import Mathlib
import RegressionScript.Proofs.Bits
import RegressionScript.Proofs.Magnitudes

/-!
# Rounding to the nearest

The nearest whole number of a fraction is the only one within half a unit of it, where half a unit
counts for even numbers. The nearest floating-point number is found in the same way, with the units
of its exponent. That the interval of a number holds all that is nearer to it than to others is not
shown here; it is how the numbers are spaced.
-/

namespace RegressionScript

set_option autoImplicit false

/-! ## Whole numbers -/

/-- No whole number is nearer to `x`, and where another one is equally near, `m` is even. -/
structure IsNearest (x : ℚ) (m : Nat) : Prop where
  nearest : ∀ n : ℤ, |x - m| ≤ |x - n|
  even_of_tie : ∀ n : ℤ, n ≠ m → |x - n| = |x - m| → m % 2 = 0

/-- At most half a unit away, and half a unit only from an even number. -/
def WithinHalf (x : ℚ) (m : Nat) : Prop :=
  |x - m| ≤ 1 / 2 ∧ (|x - m| = 1 / 2 → m % 2 = 0)

namespace WithinHalf

variable {x : ℚ} {m n : Nat}

theorem one_le_abs_add_abs (x : ℚ) {m n : ℤ} (hne : m ≠ n) : 1 ≤ |x - m| + |x - n| := by
  have hone : (1 : ℚ) ≤ |(m : ℚ) - n| := by
    have : 1 ≤ |m - n| := Int.one_le_abs (sub_ne_zero.mpr hne)
    exact_mod_cast this
  have hle := abs_sub_le (m : ℚ) x n
  rw [abs_sub_comm (m : ℚ) x] at hle
  linarith

theorem isNearest (h : WithinHalf x m) : IsNearest x m := by
  have hfar (n : ℤ) (hne : n ≠ m) : 1 ≤ |x - n| + |x - m| := by
    exact_mod_cast one_le_abs_add_abs x hne
  constructor
  · intro n
    by_cases hne : n = m
    · rw [hne]
      simp
    · linarith [h.1, hfar n hne]
  · intro n hne htie
    exact h.2 (by linarith [h.1, hfar n hne])

theorem unique (hm : WithinHalf x m) (hn : WithinHalf x n) : m = n := by
  by_contra hne
  -- both are half a unit away, so that both are even, and they differ by one
  have hfar : 1 ≤ |x - m| + |x - n| := by
    exact_mod_cast one_le_abs_add_abs x (show (m : ℤ) ≠ n by exact_mod_cast hne)
  have hmeven := hm.2 (by linarith [hm.1, hn.1])
  have hneven := hn.2 (by linarith [hm.1, hn.1])
  have hle := abs_sub_le (m : ℚ) x n
  rw [abs_sub_comm (m : ℚ) x] at hle
  have hdist : |(m : ℤ) - n| ≤ 1 := by
    have : |(m : ℚ) - n| ≤ 1 := by linarith [hm.1, hn.1]
    exact_mod_cast this
  rw [abs_le] at hdist
  omega

end WithinHalf

namespace Fraction

variable {x : Fraction}

theorem toRat_eq_floor_add (hd : 0 < x.den) :
    x.toRat = x.floor + (x.num % x.den : Nat) / (x.den : ℚ) := by
  have hden : (x.den : ℚ) ≠ 0 := by exact_mod_cast hd.ne'
  have hnum : (x.num : ℚ) = x.den * (x.num / x.den : Nat) + (x.num % x.den : Nat) := by
    exact_mod_cast (Nat.div_add_mod x.num x.den).symm
  rw [toRat, floor]
  field_simp
  linarith

theorem withinHalf_round (hd : 0 < x.den) : WithinHalf x.toRat x.round := by
  have hden : (0 : ℚ) < x.den := by exact_mod_cast hd
  have hrest : ((x.num % x.den : Nat) : ℚ) / x.den < 1 := by
    rw [div_lt_one hden]
    exact_mod_cast Nat.mod_lt x.num hd
  have hrest' : (0 : ℚ) ≤ (x.num % x.den : Nat) / x.den := by positivity
  rw [WithinHalf, toRat_eq_floor_add hd]
  unfold round
  split
  · rename_i hlt
    have hhalf : ((x.num % x.den : Nat) : ℚ) / x.den < 1 / 2 := by
      rw [div_lt_div_iff₀ hden two_pos, one_mul, mul_comm]
      exact_mod_cast Nat.compare_eq_lt.mp hlt
    rw [add_sub_cancel_left, abs_of_nonneg hrest']
    exact ⟨hhalf.le, fun h => absurd h hhalf.ne⟩
  · rename_i hgt
    have hhalf : 1 / 2 < ((x.num % x.den : Nat) : ℚ) / x.den := by
      rw [div_lt_div_iff₀ two_pos hden, one_mul, mul_comm]
      exact_mod_cast Nat.compare_eq_gt.mp hgt
    rw [Nat.cast_add_one, add_sub_add_left_eq_sub, abs_of_neg (by linarith)]
    exact ⟨by linarith, fun h => by linarith⟩
  · rename_i heq
    have hhalf : ((x.num % x.den : Nat) : ℚ) / x.den = 1 / 2 := by
      rw [div_eq_div_iff hden.ne' two_ne_zero, one_mul, mul_comm]
      exact_mod_cast Nat.compare_eq_eq.mp heq
    rw [hhalf]
    split
    · rename_i heven
      rw [add_sub_cancel_left]
      exact ⟨by norm_num, fun _ => heven⟩
    · rename_i hodd
      rw [Nat.cast_add_one, add_sub_add_left_eq_sub]
      exact ⟨by norm_num, fun _ => by omega⟩

theorem round_eq_of_withinHalf {m : Nat} (hd : 0 < x.den) (h : WithinHalf x.toRat m) :
    x.round = m :=
  (withinHalf_round hd).unique h

end Fraction

namespace Binary64

/-! ## Floating-point numbers -/

/-- How far below a number its rounding interval reaches. Just above a power of two the next number
below is only half a unit away. -/
def reachBelow (significand : Nat) (exponent : Int) : ℚ :=
  if significand = 0x10000000000000 ∧ -1074 < exponent then 1 / 4 else 1 / 2

/-- The numbers for which `significand * 2 ^ exponent` is the nearest one of the format. The two
half-way ones are among them if the significand is even. -/
structure RoundsTo (significand : Nat) (exponent : Int) (x : ℚ) : Prop where
  low_le : (significand - reachBelow significand exponent) * 2 ^ exponent ≤ x
  le_high : x ≤ (significand + 1 / 2) * 2 ^ exponent
  inside_of_odd : significand % 2 = 1 →
    (significand - reachBelow significand exponent) * 2 ^ exponent < x ∧
      x < (significand + 1 / 2) * 2 ^ exponent

variable {significand : Nat} {exponent : Int}

theorem reachBelow_le (significand : Nat) (exponent : Int) :
    reachBelow significand exponent ≤ 1 / 2 := by
  unfold reachBelow
  split <;> norm_num

theorem reachBelow_pos (significand : Nat) (exponent : Int) :
    0 < reachBelow significand exponent := by
  unfold reachBelow
  split <;> norm_num

theorem mul_zpow_neg_mul (y : ℚ) (exponent : Int) :
    y * 2 ^ exponent * 2 ^ (-exponent) = y := by
  rw [mul_assoc, ← zpow_add₀ two_ne_zero, add_neg_cancel, zpow_zero, mul_one]

theorem RoundsTo.pos {x : ℚ} (hm : 0 < significand) (h : RoundsTo significand exponent x) :
    0 < x := by
  have hreach := reachBelow_le significand exponent
  have hone : (1 : ℚ) ≤ significand := by exact_mod_cast hm
  refine lt_of_lt_of_le (mul_pos ?_ (by positivity)) h.low_le
  linarith

theorem roundsTo_self (significand : Nat) (exponent : Int) :
    RoundsTo significand exponent (significand * 2 ^ exponent) := by
  have hu : (0 : ℚ) < 2 ^ exponent := by positivity
  have hreach := reachBelow_pos significand exponent
  have hlow : (significand - reachBelow significand exponent) * 2 ^ exponent <
      (significand : ℚ) * 2 ^ exponent := mul_lt_mul_of_pos_right (by linarith) hu
  have hhigh : (significand : ℚ) * 2 ^ exponent < (significand + 1 / 2) * 2 ^ exponent :=
    mul_lt_mul_of_pos_right (by linarith) hu
  exact ⟨hlow.le, hhigh.le, fun _ => ⟨hlow, hhigh⟩⟩

theorem RoundsTo.withinHalf {x : ℚ} (h : RoundsTo significand exponent x) :
    WithinHalf (x * 2 ^ (-exponent)) significand := by
  have hu : (0 : ℚ) < 2 ^ exponent := by positivity
  obtain ⟨y, rfl⟩ : ∃ y, x = y * 2 ^ exponent := ⟨x / 2 ^ exponent, by field_simp⟩
  have hreach := reachBelow_le significand exponent
  have hlow := le_of_mul_le_mul_right h.low_le hu
  have hhigh := le_of_mul_le_mul_right h.le_high hu
  rw [mul_zpow_neg_mul]
  constructor
  · rw [abs_le]
    constructor <;> linarith
  · intro htie
    by_contra hodd
    obtain ⟨hlow', hhigh'⟩ := h.inside_of_odd (by omega)
    have hlow' := lt_of_mul_lt_mul_right hlow' hu.le
    have hhigh' := lt_of_mul_lt_mul_right hhigh' hu.le
    rcases abs_choice (y - significand) with habs | habs <;> linarith

theorem RoundsTo.lt_high {x : ℚ} (h : RoundsTo significand exponent x)
    (hc : Canonical significand exponent) : x < 2 ^ (exponent + 53) := by
  have hm : (significand : ℚ) + 1 / 2 < 2 ^ (53 : ℤ) := by
    have : (significand : ℚ) ≤ 9007199254740991 := by
      exact_mod_cast Nat.le_of_lt_succ hc.significand_lt
    norm_num
    linarith
  calc x ≤ (significand + 1 / 2) * 2 ^ exponent := h.le_high
    _ < 2 ^ (53 : ℤ) * 2 ^ exponent := mul_lt_mul_of_pos_right hm (by positivity)
    _ = 2 ^ (exponent + 53) := by rw [← zpow_add₀ two_ne_zero, add_comm]

/-- Only the interval of a power of two goes below it, by a quarter of a unit. -/
theorem RoundsTo.of_lt {x : ℚ} (h : RoundsTo significand exponent x)
    (hc : Canonical significand exponent) (hexponent : -1074 < exponent)
    (hlt : x < 2 ^ (exponent + 52)) :
    significand = 0x10000000000000 ∧ (2 ^ 53 - 1 / 2) * 2 ^ (exponent - 1) ≤ x := by
  have hu : (0 : ℚ) < 2 ^ exponent := by positivity
  have hnormal : 0x10000000000000 ≤ significand := by
    have := hc.normal
    omega
  have hsignificand : significand = 0x10000000000000 := by
    by_contra hne
    have hreach := reachBelow_le significand exponent
    have hm : (2 ^ 52 + 1 : ℚ) ≤ significand := by
      have : 0x10000000000000 + 1 ≤ significand := by omega
      exact_mod_cast this
    have hlow : (2 ^ 52 : ℚ) * 2 ^ exponent ≤ x := by
      refine le_trans (mul_le_mul_of_nonneg_right ?_ hu.le) h.low_le
      linarith
    rw [add_comm, zpow_add₀ two_ne_zero] at hlt
    exact absurd hlt (not_lt.mpr (by exact_mod_cast hlow))
  refine ⟨hsignificand, ?_⟩
  have hlow := h.low_le
  rw [reachBelow, if_pos ⟨hsignificand, hexponent⟩, hsignificand] at hlow
  refine le_trans (le_of_eq ?_) hlow
  rw [zpow_sub_one₀ two_ne_zero]
  norm_num
  ring

/-- Rounding goes to the number whose interval holds the fraction. Only below a power of two the
exponent of the fraction is another one, and a carry makes up for it. -/
theorem nearestBits_eq {x : Fraction} (hd : 0 < x.den) (hc : Canonical significand exponent)
    (h : RoundsTo significand exponent x.toRat) : nearestBits x = pattern significand exponent := by
  have hround {e : Int} {m : Nat} (hm : WithinHalf (x.toRat * 2 ^ (-e)) m) :
      (x.scale 2 (-e)).round = m := by
    apply Fraction.round_eq_of_withinHalf (Nat.mul_pos hd (Nat.pow_pos (by decide)))
    rw [Fraction.toRat_scale (by decide)]
    exact hm
  unfold nearestBits
  by_cases hnum : x.num = 0
  · have hzero : significand = 0 := by
      apply h.withinHalf.unique
      simp [WithinHalf, Fraction.toRat, hnum]
    have hleast : exponent = -1074 := by
      have := hc.normal
      omega
    rw [if_pos hnum, hzero, hleast]
    rfl
  · obtain ⟨hlow, hhigh⟩ := Fraction.order_spec (by decide : 1 < 2) (Nat.pos_of_ne_zero hnum) hd
    have hupper := (zpow_lt_zpow_iff_right₀ one_lt_two).mp (hlow.trans_lt (h.lt_high hc))
    have hleast := hc.le_exponent
    rw [if_neg hnum]
    dsimp only
    by_cases hbelow : -1074 < exponent ∧ x.toRat < 2 ^ (exponent + 52)
    · obtain ⟨hsignificand, hhalf⟩ := h.of_lt hc hbelow.1 hbelow.2
      have hpower : (2 : ℚ) ^ (exponent + 51) ≤ x.toRat := by
        refine le_trans ?_ hhalf
        rw [show exponent + 51 = 52 + (exponent - 1) by ring, zpow_add₀ two_ne_zero]
        exact mul_le_mul_of_nonneg_right (by norm_num) (by positivity)
      have hlower := (zpow_lt_zpow_iff_right₀ one_lt_two).mp (hpower.trans_lt hhigh)
      have hupper := (zpow_lt_zpow_iff_right₀ one_lt_two).mp (hlow.trans_lt hbelow.2)
      have hcarry : WithinHalf (x.toRat * 2 ^ (-(exponent - 1))) 0x20000000000000 := by
        have hu : (0 : ℚ) < 2 ^ (exponent - 1) := by positivity
        obtain ⟨y, hy⟩ : ∃ y, x.toRat = y * 2 ^ (exponent - 1) :=
          ⟨x.toRat / 2 ^ (exponent - 1), by field_simp⟩
        have hylow := le_of_mul_le_mul_right (hy ▸ hhalf) hu
        have hyhigh : y < 2 ^ (53 : ℤ) := by
          apply lt_of_mul_lt_mul_right _ hu.le
          rw [← hy, ← zpow_add₀ two_ne_zero, show 53 + (exponent - 1) = exponent + 52 by ring]
          exact hbelow.2
        rw [hy, mul_zpow_neg_mul]
        refine ⟨?_, fun _ => rfl⟩
        rw [abs_le]
        norm_num at hylow hyhigh ⊢
        constructor <;> linarith
      rw [show max (x.order 2 - 52) (-1074) = exponent - 1 by omega, hround hcarry, pattern]
      omega
    · have horder : max (x.order 2 - 52) (-1074) = exponent := by
        rcases not_and_or.mp hbelow with hle | hge
        · omega
        · have := (zpow_lt_zpow_iff_right₀ one_lt_two).mp ((not_lt.mp hge).trans_lt hhigh)
          omega
      rw [horder, hround h.withinHalf, pattern]

theorem nearest?_eq_some {v : Float} {negative : Bool} {x : Fraction} (hd : 0 < x.den)
    (hv : ofFloat v = .finite negative significand exponent)
    (h : RoundsTo significand exponent x.toRat) : nearest? negative x = some v := by
  have hc := canonical_of_ofBits hv
  have hbits := eq_pattern_of_ofBits v.toBits.toNat_lt hv
  have hlt : pattern significand exponent < 0x7ff0000000000000 := by
    have := hc.significand_lt
    have := hc.exponent_le
    rw [pattern]
    omega
  rw [nearest?, nearestBits_eq hd hc h, if_pos hlt, ← hbits, UInt64.ofNat_toNat,
    Float.ofBits_toBits]

/-- Below `2 ^ 1023` no carry leads out of the finite numbers. -/
theorem isSome_nearest? (negative : Bool) {x : Fraction} (hd : 0 < x.den)
    (h : x.toRat < 2 ^ (1023 : Int)) : (nearest? negative x).isSome = true := by
  have hbits : nearestBits x < 0x7ff0000000000000 := by
    unfold nearestBits
    split
    · decide
    · rename_i hnum
      obtain ⟨hlow, hhigh⟩ := Fraction.order_spec (by decide : 1 < 2) (Nat.pos_of_ne_zero hnum) hd
      have horder := (zpow_lt_zpow_iff_right₀ one_lt_two).mp (hlow.trans_lt h)
      dsimp only
      generalize hexponent : max (x.order 2 - 52) (-1074) = exponent
      have hround : (x.scale 2 (-exponent)).round ≤ 0x20000000000000 := by
        apply Fraction.round_le (Nat.mul_pos hd (Nat.pow_pos (by decide)))
        rw [Fraction.toRat_scale (by decide)]
        calc x.toRat * ((2 : Nat) : ℚ) ^ (-exponent)
            < 2 ^ (exponent + 53) * 2 ^ (-exponent) := by
              refine mul_lt_mul_of_pos_right (hhigh.trans_le ?_) (by positivity)
              exact zpow_le_zpow_right₀ one_le_two (by omega)
          _ = ((0x20000000000000 : Nat) : ℚ) := by
              rw [← zpow_add₀ two_ne_zero, show exponent + 53 + -exponent = 53 by ring]
              norm_num
      omega
  rw [nearest?, if_pos hbits]
  rfl

end Binary64

end RegressionScript
