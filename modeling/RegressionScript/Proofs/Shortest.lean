import Mathlib
import RegressionScript.Proofs.Rounding

/-!
# Shortest decimals

The shortest decimal of a floating-point number reads as that number again, and so does every other
spelling of the same decimal. That none with fewer digits would do is not shown here.
-/

namespace RegressionScript

set_option autoImplicit false

namespace Decimal

open Binary64

variable {tie : Tie} {significand : Nat} {exponent : Int} {d : Decimal}

theorem toRat_toFraction (d : Decimal) : d.toFraction.toRat = d.toRat := by
  rw [toFraction, Fraction.toRat_scale (by decide), Decimal.toRat]
  simp [Fraction.toRat]

theorem den_toFraction_pos (d : Decimal) : 0 < d.toFraction.den :=
  Nat.mul_pos Nat.one_pos (Nat.pow_pos (by decide))

/-! ## Decimals that read as a number -/

theorem roundsTo_of_readsAs (hm : 0 < significand) (h : d.readsAs significand exponent = true) :
    RoundsTo significand exponent d.toRat := by
  have hlow : (magnitude (4 * significand -
      if significand = 0x10000000000000 ∧ -1074 < exponent then 1 else 2) (exponent - 2)).toRat =
        (significand - reachBelow significand exponent) * 2 ^ exponent := by
    rw [toRat_magnitude, zpow_sub₀ two_ne_zero, reachBelow]
    split
    · rw [Nat.cast_sub (by omega)]
      push_cast
      ring
    · rw [Nat.cast_sub (by omega)]
      push_cast
      ring
  have hhigh : (magnitude (4 * significand + 2) (exponent - 2)).toRat =
      (significand + 1 / 2) * 2 ^ exponent := by
    rw [toRat_magnitude, zpow_sub₀ two_ne_zero]
    push_cast
    ring
  have hden := den_magnitude_pos
  have hd := den_toFraction_pos d
  unfold readsAs at h
  dsimp only at h
  split at h
  · rename_i heven
    rw [Bool.and_eq_true, Fraction.le_iff (hden _ _) hd, Fraction.le_iff hd (hden _ _), hlow, hhigh,
      toRat_toFraction] at h
    exact ⟨h.1, h.2, fun hodd => by omega⟩
  · rw [Bool.and_eq_true, Fraction.lt_iff (hden _ _) hd, Fraction.lt_iff hd (hden _ _), hlow, hhigh,
      toRat_toFraction] at h
    exact ⟨h.1.le, h.2.le, fun _ => h⟩

/-! ## Shortest decimals -/

theorem toRat_trim (d : Decimal) : d.trim.toRat = d.toRat := by
  induction d using trim.induct with
  | case1 d h ih =>
    rw [trim, if_pos h, ih, Decimal.toRat, Decimal.toRat, zpow_add_one₀ (by norm_num)]
    have hdigits : (d.digits : ℚ) = 10 * (d.digits / 10 : Nat) := by
      exact_mod_cast (Nat.mul_div_cancel' (Nat.dvd_of_mod_eq_zero h.2)).symm
    rw [hdigits]
    push_cast
    ring
  | case2 d h => rw [trim, if_neg h]

theorem digits_trim_le (d : Decimal) : d.trim.digits ≤ d.digits := by
  induction d using trim.induct with
  | case1 d h ih =>
    rw [trim, if_pos h]
    exact ih.trans (Nat.div_le_self d.digits 10)
  | case2 d h => rw [trim, if_neg h]

theorem digits_trim_mod (d : Decimal) (h : d.digits ≠ 0) : d.trim.digits % 10 ≠ 0 := by
  induction d using trim.induct with
  | case1 d hd ih =>
    rw [trim, if_pos hd]
    exact ih (by dsimp only; omega)
  | case2 d hd =>
    rw [trim, if_neg hd]
    omega

/-- One of the two neighbours on the grid of `n` digits that reads as the number. -/
theorem withDigits?_eq_some {n : Nat} (h : withDigits? tie significand exponent n = some d) :
    d.readsAs significand exponent = true ∧
      d.digits ≤ ((magnitude significand exponent).scale 10
        (-((magnitude significand exponent).order 10 + 1 - n))).floor + 1 := by
  unfold withDigits? at h
  dsimp only at h
  split at h
  · cases h
    exact ⟨‹_›, Nat.le_succ _⟩
  · cases h
    exact ⟨‹_›, le_refl _⟩
  · cases h
  · split at h
    · cases h
      exact ⟨‹_›, Nat.le_succ _⟩
    · cases h
      exact ⟨‹_›, le_refl _⟩
    · cases h
      exact ⟨‹_›, le_refl _⟩
    · split at h
      · cases h
        exact ⟨‹_›, Nat.le_succ _⟩
      · cases h
        exact ⟨‹_›, le_refl _⟩

theorem floor_scale_lt {x : Fraction} (hn : 0 < x.num) (hd : 0 < x.den) (n : Nat) :
    (x.scale 10 (-(x.order 10 + 1 - n))).floor < 10 ^ n := by
  apply Fraction.lt_of_toRat_lt (Nat.mul_pos hd (Nat.pow_pos (by decide)))
  rw [Fraction.toRat_scale (by decide)]
  calc x.toRat * ((10 : Nat) : ℚ) ^ (-(x.order 10 + 1 - n))
      < ((10 : Nat) : ℚ) ^ (x.order 10 + 1) * ((10 : Nat) : ℚ) ^ (-(x.order 10 + 1 - n)) :=
        mul_lt_mul_of_pos_right (Fraction.order_spec (by decide) hn hd).2 (by positivity)
    _ = ((10 ^ n : Nat) : ℚ) := by
        rw [← zpow_add₀ (by norm_num), Nat.cast_pow, ← zpow_natCast]
        congr 1
        ring

/-- Products of powers of two and five are whole numbers times powers of ten. -/
theorem toRat_exact (significand : Nat) (exponent : Int) :
    (⟨significand * Nat.pow 2 exponent.toNat * Nat.pow 5 (-exponent).toNat, min exponent 0⟩ :
      Decimal).toRat = significand * 2 ^ exponent := by
  rw [Decimal.toRat]
  simp only [Nat.pow_eq]
  push_cast
  rcases le_total 0 exponent with h | h
  · rw [min_eq_right h, show (-exponent).toNat = 0 by omega, zpow_zero, ← zpow_natCast,
      Int.toNat_of_nonneg h]
    ring
  · rw [min_eq_left h, show exponent.toNat = 0 by omega, ← zpow_natCast (5 : ℚ),
      Int.toNat_of_nonneg (by omega), show (10 : ℚ) = 2 * 5 by norm_num, mul_zpow, zpow_neg]
    field_simp

theorem digits_exact_lt (hc : Canonical significand exponent) :
    significand * Nat.pow 2 exponent.toNat * Nat.pow 5 (-exponent).toNat < 10 ^ 768 := by
  have hm : significand < 10 ^ 16 := hc.significand_lt.trans (by decide)
  have hleast := hc.le_exponent
  have hmost := hc.exponent_le
  have hpower : 2 ^ exponent.toNat * 5 ^ (-exponent).toNat ≤ 10 ^ 752 := by
    rcases le_total 0 exponent with h | h
    · rw [show (-exponent).toNat = 0 by omega, pow_zero, mul_one]
      calc 2 ^ exponent.toNat ≤ 2 ^ 971 := Nat.pow_le_pow_right (by decide) (by omega)
        _ ≤ 10 ^ 752 := by decide +kernel
    · rw [show exponent.toNat = 0 by omega, pow_zero, one_mul]
      calc 5 ^ (-exponent).toNat ≤ 5 ^ 1074 := Nat.pow_le_pow_right (by decide) (by omega)
        _ ≤ 10 ^ 752 := by decide +kernel
  rw [Nat.pow_eq, Nat.pow_eq, mul_assoc, show 768 = 16 + 752 by rfl, pow_add]
  exact Nat.mul_lt_mul_of_lt_of_le hm hpower (by positivity)

/-- What the shortest decimal of a number is chosen from: it reads as the number, it has few enough
digits to be read one by one, and none of them is a zero at the end. -/
theorem shortest_spec (tie : Tie) (hc : Canonical significand exponent) :
    RoundsTo significand exponent (shortest tie significand exponent).toRat ∧
      Digits.width 10 (shortest tie significand exponent).digits ≤ 768 ∧
      (shortest tie significand exponent = ⟨0, 0⟩ ∨
        (shortest tie significand exponent).digits % 10 ≠ 0) := by
  by_cases hm : significand = 0
  · have hzero : shortest tie significand exponent = ⟨0, 0⟩ := by rw [shortest, if_pos hm]
    rw [hzero]
    refine ⟨?_, by simp [Digits.width], .inl rfl⟩
    simpa [Decimal.toRat, hm] using roundsTo_self significand exponent
  · have hm : 0 < significand := Nat.pos_of_ne_zero hm
    obtain ⟨d, hd, hrounds, hlt⟩ : ∃ d : Decimal, shortest tie significand exponent = d.trim ∧
        RoundsTo significand exponent d.toRat ∧ d.digits < 10 ^ 768 := by
      rw [shortest, if_neg hm.ne']
      dsimp only
      cases hfind : (List.range 17).findSome? fun n => withDigits? tie significand exponent (n + 1)
        with
      | none =>
        refine ⟨_, rfl, ?_, digits_exact_lt hc⟩
        rw [Option.getD_none, toRat_exact]
        exact roundsTo_self significand exponent
      | some d =>
        obtain ⟨n, hn, hd⟩ := List.exists_of_findSome?_eq_some hfind
        obtain ⟨hreads, hle⟩ := withDigits?_eq_some hd
        refine ⟨d, rfl, roundsTo_of_readsAs hm hreads, ?_⟩
        have hnum : 0 < (magnitude significand exponent).num :=
          Nat.mul_pos hm (Nat.pow_pos (by decide))
        have hfloor := floor_scale_lt hnum (den_magnitude_pos significand exponent) (n + 1)
        have hn := List.mem_range.mp hn
        exact (hle.trans hfloor).trans_lt (pow_lt_pow_right₀ (by decide) (by omega))
    have hpos := hrounds.pos hm
    rw [hd, toRat_trim]
    have hwidth := Digits.width_le_of_lt (by decide) ((digits_trim_le d).trans_lt hlt)
    refine ⟨hrounds, hwidth, .inr (digits_trim_mod d fun hzero => ?_)⟩
    simp [Decimal.toRat, hzero] at hpos

/-! ## Reading decimals -/

theorem toRat_lt_point (d : Decimal) : d.toRat < 10 ^ d.point := by
  have hwidth : (d.digits : ℚ) < 10 ^ (Digits.width 10 d.digits : Int) := by
    rw [zpow_natCast]
    exact_mod_cast Digits.lt_pow_width (by decide) d.digits
  rw [Decimal.toRat, point, zpow_add₀ (by norm_num)]
  exact mul_lt_mul_of_pos_right hwidth (by positivity)

theorem point_le_toRat (h : d.digits ≠ 0) : 10 ^ (d.point - 1) ≤ d.toRat := by
  have hpos := Digits.width_pos (by decide : 1 < 10) (Nat.pos_of_ne_zero h)
  have hwidth : (10 : ℚ) ^ ((Digits.width 10 d.digits - 1 : Nat) : Int) ≤ d.digits := by
    rw [zpow_natCast]
    exact_mod_cast Digits.pow_width_le (by decide) (Nat.pos_of_ne_zero h)
  rw [Decimal.toRat, point, show (Digits.width 10 d.digits : Int) + d.exponent - 1 =
    ((Digits.width 10 d.digits - 1 : Nat) : Int) + d.exponent by omega, zpow_add₀ (by norm_num)]
  exact mul_le_mul_of_nonneg_right hwidth (by positivity)

theorem point_le_of_roundsTo (hc : Canonical significand exponent) (hd : d.digits ≠ 0)
    (h : RoundsTo significand exponent d.toRat) : d.point ≤ 310 := by
  have hlt : (10 : ℚ) ^ (d.point - 1) < 10 ^ (309 : Int) := by
    calc (10 : ℚ) ^ (d.point - 1) ≤ d.toRat := point_le_toRat hd
      _ < 2 ^ (exponent + 53) := h.lt_high hc
      _ ≤ 2 ^ (1024 : Int) := zpow_le_zpow_right₀ one_le_two (by have := hc.exponent_le; omega)
      _ ≤ 10 ^ (309 : Int) := by exact_mod_cast (by decide +kernel : 2 ^ 1024 ≤ 10 ^ 309)
  have := (zpow_lt_zpow_iff_right₀ (by norm_num)).mp hlt
  omega

theorem le_point_of_roundsTo (hc : Canonical significand exponent) (hm : 0 < significand)
    (h : RoundsTo significand exponent d.toRat) : -330 ≤ d.point := by
  have hone : (1 : ℚ) ≤ significand := by exact_mod_cast hm
  have hreach := reachBelow_le significand exponent
  have hlt : (10 : ℚ) ^ (-324 : Int) < 10 ^ d.point := by
    calc (10 : ℚ) ^ (-324 : Int) ≤ 2 ^ (-1075 : Int) := by
          rw [zpow_neg, zpow_neg]
          apply inv_anti₀ (by positivity)
          exact_mod_cast (by decide +kernel : 2 ^ 1075 ≤ 10 ^ 324)
      _ = 1 / 2 * 2 ^ (-1074 : Int) := by
          rw [show (-1075 : Int) = -1074 - 1 by rfl, zpow_sub_one₀ two_ne_zero]
          ring
      _ ≤ (significand - reachBelow significand exponent) * 2 ^ exponent :=
          mul_le_mul (by linarith) (zpow_le_zpow_right₀ one_le_two hc.le_exponent) (by positivity)
            (by linarith)
      _ ≤ d.toRat := h.low_le
      _ < 10 ^ d.point := toRat_lt_point d
  have := (zpow_lt_zpow_iff_right₀ (by norm_num)).mp hlt
  omega

theorem toFloat?_eq_some {v : Float} {negative : Bool}
    (hv : ofFloat v = .finite negative significand exponent)
    (h : RoundsTo significand exponent d.toRat) : d.toFloat? negative = some v := by
  have hc := canonical_of_ofBits hv
  unfold toFloat?
  split
  · rename_i hfar
    -- only zero is read from decimals that are zero or next to it
    have hm : significand = 0 := by
      by_contra hm
      have hm := Nat.pos_of_ne_zero hm
      rcases hfar with hzero | hpoint
      · have := h.pos hm
        simp [Decimal.toRat, hzero] at this
      · exact absurd (le_point_of_roundsTo hc hm h) (not_le.mpr hpoint)
    apply nearest?_eq_some Nat.one_pos hv
    simpa [Fraction.toRat, hm] using roundsTo_self significand exponent
  · rename_i hnear
    rw [not_or] at hnear
    rw [if_neg (not_lt.mpr (point_le_of_roundsTo hc hnear.1 h))]
    apply nearest?_eq_some (den_toFraction_pos d) hv
    rw [toRat_toFraction]
    exact h

theorem isSome_toFloat? (negative : Bool) {n : Nat} (hn : n < 10 ^ 300) :
    ((⟨n, 0⟩ : Decimal).toFloat? negative).isSome = true := by
  have hpoint : (⟨n, 0⟩ : Decimal).point ≤ 300 := by
    simpa [point] using Digits.width_le_of_lt (by decide) hn
  have hlt : (⟨n, 0⟩ : Decimal).toFraction.toRat < 2 ^ (1023 : Int) := by
    rw [toRat_toFraction]
    calc (⟨n, 0⟩ : Decimal).toRat < 10 ^ (⟨n, 0⟩ : Decimal).point := toRat_lt_point _
      _ ≤ 10 ^ (300 : Int) := zpow_le_zpow_right₀ (by norm_num) hpoint
      _ ≤ 2 ^ (1023 : Int) := by exact_mod_cast (by decide +kernel : 10 ^ 300 ≤ 2 ^ 1023)
  unfold toFloat?
  split
  · rfl
  · rw [if_neg (by omega)]
    exact isSome_nearest? negative (den_toFraction_pos _) hlt

end Decimal

end RegressionScript
