import Mathlib
import RegressionScript.Proofs.Rounding
import RegressionScript.Proofs.Tokens

/-!
# Literals are correctly rounded

The literal of a finite value has one form: a sign for the sign bit, one digit that is zero for the
zeros only, the places, and an exponent of at least two digits. It denotes the value rounded to its
places, a half to the even neighbour.
-/

namespace RegressionScript

set_option autoImplicit false

namespace Literal

/-- The significand is the nearest whole number, with `places` digits after the first. -/
theorem scientific_spec (places : Nat) {x : Fraction} (hn : 0 < x.num) (hd : 0 < x.den) :
    10 ^ places ≤ (scientific places x).1 ∧
      ∃ m : Nat, IsNearest (x.toRat * 10 ^ ((places : Int) - x.order 10)) m ∧
        ((scientific places x).1 : ℚ) * 10 ^ ((scientific places x).2 - places) =
          m * 10 ^ (x.order 10 - places) := by
  have hden : 0 < (x.scale 10 (places - x.order 10)).den :=
    Nat.mul_pos hd (Nat.pow_pos (by decide))
  have hhalf := Fraction.withinHalf_round hden
  rw [Fraction.toRat_scale (by decide), Nat.cast_ofNat] at hhalf
  have hlow : (10 ^ places : ℚ) ≤ x.toRat * 10 ^ ((places : Int) - x.order 10) := by
    calc (10 ^ places : ℚ) = 10 ^ x.order 10 * 10 ^ ((places : Int) - x.order 10) := by
          rw [← zpow_add₀ (by norm_num), add_sub_cancel, zpow_natCast]
      _ ≤ x.toRat * 10 ^ ((places : Int) - x.order 10) :=
          mul_le_mul_of_nonneg_right (Fraction.order_spec (by decide) hn hd).1 (by positivity)
  have hround : 10 ^ places ≤ (x.scale 10 (places - x.order 10)).round := by
    have hle := (abs_le.mp hhalf.1).2
    have : (10 ^ places : ℚ) < ((x.scale 10 (places - x.order 10)).round : ℚ) + 1 := by linarith
    exact Nat.lt_succ_iff.mp (by exact_mod_cast this)
  unfold scientific
  rw [if_neg hn.ne']
  dsimp only
  split
  · rename_i hcarry
    refine ⟨le_refl _, _, hhalf.isNearest, ?_⟩
    rw [hcarry, Nat.pow_eq, Nat.pow_eq, Nat.cast_pow, Nat.cast_pow, Nat.cast_ofNat, pow_succ,
      mul_assoc, ← zpow_one_add₀ (by norm_num)]
    congr 2
    ring
  · exact ⟨hround, _, hhalf.isNearest, rfl⟩

theorem scientific_zero (places : Nat) {x : Fraction} (hn : x.num = 0) :
    scientific places x = (0, 0) := by
  rw [scientific, if_pos hn]

/-- A sign, a digit, a point and the other digits if there are any, and an exponent of at least two
digits. -/
def spelling (negative : Bool) (d : Char) (ds : List Char) (e : Int) : List Char :=
  signText negative ++ d :: ((if ds = [] then [] else '.' :: ds) ++
    'e' :: (if e < 0 then '-' else '+') :: (Nat.toDigits 10 e.natAbs).leftpad 2 '0')

/-- The digits and the exponent that stand for `x` in `places` places after the first digit. -/
structure IsRounded (places : Nat) (x : ℚ) (d : Char) (ds : List Char) (e : Int) : Prop where
  isDigit_first : d.isDigit = true
  first_eq_zero_iff : d = '0' ↔ x = 0
  length_rest : ds.length = places
  isDigit_rest : ∀ c ∈ ds, c.isDigit = true
  value_of_zero : x = 0 → Digits.value (d :: ds) = 0 ∧ e = 0
  value_of_ne_zero : x ≠ 0 → ∃ (k : Int) (m : Nat),
    10 ^ k ≤ |x| ∧ |x| < 10 ^ (k + 1) ∧ IsNearest (|x| * 10 ^ (places - k)) m ∧
      (Digits.value (d :: ds) : ℚ) * 10 ^ (e - places) = m * 10 ^ (k - places)

theorem exists_isRounded (places : Nat) {x : Fraction} (hd : 0 < x.den) :
    ∃ d ds e, magnitudeText places x = spelling false d ds e ∧
      IsRounded places x.toRat d ds e := by
  have hzero : x.toRat = 0 ↔ x.num = 0 := Fraction.toRat_eq_zero_iff hd
  obtain ⟨d, ds, hdigits, htext, hisDigit, hrest, hlength, hvalue⟩ := Sqf.exists_digits places hd
  have hfirst : d = Digits.digit ((scientific places x).1 / 10 ^ places % 10) := by
    rw [Digits.padded_eq_cons] at hdigits
    exact (List.cons.inj hdigits).1.symm
  refine ⟨d, ds, (scientific places x).2, ?_, hisDigit, ?_, hlength, hrest, ?_, ?_⟩
  · rw [htext, Sqf.numeral, exponentText, Digits.padded_max_width (by decide)]
    rfl
  · rw [hfirst, Digits.digit_eq_zero_iff (scientific_lt places hd), hzero]
    by_cases hn : x.num = 0
    · simp [scientific_zero places hn, hn]
    · simp [hn, (scientific_spec places (Nat.pos_of_ne_zero hn) hd).1]
  · intro hx
    rw [hvalue, scientific_zero places (hzero.mp hx)]
    exact ⟨rfl, rfl⟩
  · intro hx
    have hn : 0 < x.num := Nat.pos_of_ne_zero (mt hzero.mpr hx)
    obtain ⟨-, m, hnearest, hm⟩ := scientific_spec places hn hd
    obtain ⟨hlow, hhigh⟩ := Fraction.order_spec (by decide : 1 < 10) hn hd
    rw [abs_of_nonneg (Fraction.toRat_nonneg x), hvalue]
    exact ⟨x.order 10, m, by exact_mod_cast hlow, by exact_mod_cast hhigh, hnearest, hm⟩

theorem IsRounded.signed {places : Nat} {x : ℚ} {d : Char} {ds : List Char} {e : Int}
    (h : IsRounded places x d ds e) (negative : Bool) :
    IsRounded places (sign negative * x) d ds e where
  isDigit_first := h.isDigit_first
  first_eq_zero_iff := by
    rw [sign_mul_eq_zero_iff]
    exact h.first_eq_zero_iff
  length_rest := h.length_rest
  isDigit_rest := h.isDigit_rest
  value_of_zero := by
    rw [sign_mul_eq_zero_iff]
    exact h.value_of_zero
  value_of_ne_zero := by
    rw [Ne, sign_mul_eq_zero_iff, abs_sign_mul]
    exact h.value_of_ne_zero

theorem testBit_eq_of_ofFloat {v : Float} {negative : Bool} {significand : Nat} {exponent : Int}
    (h : Binary64.ofFloat v = .finite negative significand exponent) :
    v.toBits.toNat.testBit 63 = negative := by
  rw [Nat.testBit_eq_decide_div_mod_eq]
  exact (Binary64.ofBits_eq_finite_iff.mp h).1

theorem rounded_to_nearest {v : Float} {places : Nat}
    (hv : (Binary64.ofFloat v).isFinite = true) (hp : places ≤ maxPlaces) :
    (∃ d ds e,
      format? v places = some (String.ofList (spelling (v.toBits.toNat.testBit 63) d ds e)) ∧
        IsRounded places (Binary64.ofFloat v).toRat d ds e) ∧
      (v.toBits.toNat.testBit 63 = false →
        format? (-v) places = (format? v places).map ("-" ++ ·)) := by
  unfold Binary64.isFinite at hv
  split at hv
  · rename_i negative significand exponent hfinite
    have hden := Binary64.den_magnitude_pos significand exponent
    rw [testBit_eq_of_ofFloat hfinite]
    constructor
    · obtain ⟨d, ds, e, htext, hrounded⟩ := exists_isRounded places hden
      refine ⟨d, ds, e, ?_, ?_⟩
      · rw [format?, if_pos hp, text_of_finite hfinite, htext]
        rfl
      · rw [hfinite, Binary64.toRat, ← Binary64.toRat_magnitude]
        exact hrounded.signed negative
    · rintro rfl
      have hneg := Binary64.ofFloat_neg hfinite
      rw [format?, format?, if_pos hp, if_pos hp, text_of_finite hneg, text_of_finite hfinite]
      simp [signText, String.ofList_cons]
  · cases hv

/-- Rounding up to the next power of ten, which is written with another exponent. -/
theorem nines_round_up :
    ((Binary64.ofFloat 9.9996).isFinite = true ∧ 3 ≤ maxPlaces) ∧
      format? 9.9996 3 = some "1.000e+01" ∧
      (∃ d ds e, format? 9.9996 3 = some (String.ofList (spelling false d ds e)) ∧
        IsRounded 3 (Binary64.ofFloat 9.9996).toRat d ds e) ∧
      format? (-9.9996) 3 = some "-1.000e+01" := by
  have hfinite : (Binary64.ofFloat 9.9996).isFinite = true := by decide +kernel
  have hplaces : 3 ≤ maxPlaces := by decide
  have hsign : (9.9996 : Float).toBits.toNat.testBit 63 = false := by decide +kernel
  have htext : format? 9.9996 3 = some "1.000e+01" := by decide +kernel
  have h := rounded_to_nearest hfinite hplaces
  rw [hsign] at h
  refine ⟨⟨hfinite, hplaces⟩, htext, h.1, ?_⟩
  rw [h.2 rfl, htext]
  rfl

end Literal

end RegressionScript
