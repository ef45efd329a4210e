import Mathlib
import RegressionScript.Proofs.Literals
import RegressionScript.Proofs.Shortest

/-!
# Places that tell all numbers apart

Decimals with sixteen places stand closer together than numbers do, also below a power of two and
where numbers are subnormal. So a literal with as many places lies strictly inside the rounding
interval of its value, and inside that interval every other number is farther away.
-/

namespace RegressionScript

set_option autoImplicit false

namespace Binary64

/-! ## Gaps between numbers -/

variable {m n : Nat} {e k : Int} {x : ℚ}

/-- Other numbers keep a distance from `m * 2 ^ e`: a whole unit above it, and below it twice what the
rounding interval reaches. -/
theorem neighbours (hm : Canonical m e) (hn : Canonical n k) (hne : (n * 2 ^ k : ℚ) ≠ m * 2 ^ e) :
    (n * 2 ^ k : ℚ) ≤ (m - 2 * reachBelow m e) * 2 ^ e ∨ ((m + 1) * 2 ^ e : ℚ) ≤ n * 2 ^ k := by
  have hu : (0 : ℚ) < 2 ^ e := by positivity
  rcases lt_or_ge k e with hlt | hle
  · left
    have hhalf : (2 : ℚ) ^ e = 2 * 2 ^ (e - 1) := by
      rw [← zpow_one_add₀ two_ne_zero, add_sub_cancel]
    have hbelow : (n * 2 ^ k : ℚ) ≤ (2 ^ 53 - 1) * 2 ^ (e - 1) := by
      have hsignificand : (n : ℚ) ≤ 2 ^ 53 - 1 := by
        have : n + 1 ≤ 2 ^ 53 := hn.significand_lt
        have : (n : ℚ) + 1 ≤ 2 ^ 53 := by exact_mod_cast this
        linarith
      exact mul_le_mul hsignificand (zpow_le_zpow_right₀ one_le_two (by omega)) (by positivity)
        (by norm_num)
    refine hbelow.trans ?_
    have hleast := hn.le_exponent
    have hnormal : 0x10000000000000 ≤ m := by
      have := hm.normal
      omega
    unfold reachBelow
    split
    · rename_i hpower
      rw [hpower.1, hhalf]
      exact le_of_eq (by push_cast; ring)
    · rename_i hpower
      have hsignificand : (2 ^ 52 + 1 : ℚ) ≤ m := by
        have : 0x10000000000000 + 1 ≤ m := by omega
        exact_mod_cast this
      calc (2 ^ 53 - 1 : ℚ) * 2 ^ (e - 1) ≤ (m - 2 * (1 / 2)) * 2 * 2 ^ (e - 1) :=
            mul_le_mul_of_nonneg_right (by linarith) (by positivity)
        _ = (m - 2 * (1 / 2)) * 2 ^ e := by rw [hhalf, mul_assoc]
  · -- the other number is a multiple of the unit of this one
    have hmultiple : (n * 2 ^ k : ℚ) = (n * 2 ^ (k - e).toNat : Nat) * 2 ^ e := by
      rw [Nat.cast_mul, Nat.cast_pow, Nat.cast_ofNat, mul_assoc, ← zpow_natCast,
        ← zpow_add₀ two_ne_zero]
      congr 2
      omega
    rw [hmultiple] at hne ⊢
    generalize n * 2 ^ (k - e).toNat = j at hne ⊢
    have hreach := reachBelow_le m e
    rcases Nat.lt_trichotomy j m with hj | rfl | hj
    · left
      have : (j : ℚ) + 1 ≤ m := by exact_mod_cast hj
      exact mul_le_mul_of_nonneg_right (by linarith) hu.le
    · exact absurd rfl hne
    · right
      have : (m : ℚ) + 1 ≤ j := by exact_mod_cast hj
      exact mul_le_mul_of_nonneg_right this hu.le

/-- Strictly inside the rounding interval of `m * 2 ^ e`. -/
structure Inside (m : Nat) (e : Int) (x : ℚ) : Prop where
  low_lt : (m - reachBelow m e) * 2 ^ e < x
  lt_high : x < (m + 1 / 2) * 2 ^ e

theorem Inside.roundsTo (h : Inside m e x) : RoundsTo m e x :=
  ⟨h.low_lt.le, h.lt_high.le, fun _ => ⟨h.low_lt, h.lt_high⟩⟩

theorem Inside.abs_sub_lt (h : Inside m e x) (hm : Canonical m e) (hn : Canonical n k)
    (hne : (n * 2 ^ k : ℚ) ≠ m * 2 ^ e) : |x - m * 2 ^ e| < |x - n * 2 ^ k| := by
  have hu : (0 : ℚ) < 2 ^ e := by positivity
  have hpos : 0 < reachBelow m e * 2 ^ e := mul_pos (reachBelow_pos m e) hu
  have hreach : reachBelow m e * 2 ^ e ≤ 1 / 2 * 2 ^ e :=
    mul_le_mul_of_nonneg_right (reachBelow_le m e) hu.le
  have hlow := h.low_lt
  have hhigh := h.lt_high
  rw [sub_mul] at hlow
  rw [add_mul] at hhigh
  rcases neighbours hm hn hne with hbelow | habove
  · rw [sub_mul, mul_assoc] at hbelow
    refine lt_of_lt_of_le ?_ (le_abs_self _)
    rw [abs_lt]
    constructor <;> linarith
  · rw [add_mul] at habove
    refine lt_of_lt_of_le ?_ (neg_le_abs _)
    rw [abs_lt]
    constructor <;> linarith

/-- A number of the other sign is at least as far away as the same number without it. -/
theorem Inside.abs_sign_sub_lt (h : Inside m e x) (hm : Canonical m e) (hn : Canonical n k)
    (hx : 0 ≤ x) {a b : Bool}
    (hne : Literal.sign b * (n * 2 ^ k) ≠ Literal.sign a * (m * 2 ^ e)) :
    |Literal.sign a * x - Literal.sign a * (m * 2 ^ e)| <
      |Literal.sign a * x - Literal.sign b * (n * 2 ^ k)| := by
  rw [← mul_sub, Literal.abs_sign_mul]
  by_cases hab : a = b
  · subst hab
    rw [← mul_sub, Literal.abs_sign_mul]
    exact h.abs_sub_lt hm hn fun heq => hne (by rw [heq])
  · have hopposite : Literal.sign b = -Literal.sign a := by
      cases a <;> cases b <;> simp_all [Literal.sign]
    have hn' : (0 : ℚ) ≤ n * 2 ^ k := by positivity
    rw [hopposite, neg_mul, sub_neg_eq_add, ← mul_add, Literal.abs_sign_mul,
      abs_of_nonneg (add_nonneg hx hn')]
    by_cases heq : (n * 2 ^ k : ℚ) = m * 2 ^ e
    · have hpos : 0 < m := by
        by_contra hzero
        rw [hopposite, heq, Nat.eq_zero_of_not_pos hzero] at hne
        simp at hne
      have hx := h.roundsTo.pos hpos
      have hv : (0 : ℚ) < m * 2 ^ e := by positivity
      rw [heq, abs_lt]
      constructor <;> linarith
    · refine (h.abs_sub_lt hm hn heq).trans_le ?_
      rw [abs_le]
      constructor <;> linarith

end Binary64

theorem IsNearest.abs_sub_le {x : ℚ} {m : Nat} (h : IsNearest x m) : |x - m| ≤ 1 / 2 :=
  (h.nearest (round x)).trans (abs_sub_round x)

/-! ## Gaps between decimals -/

namespace Literal

open Binary64

variable {m : Nat} {e : Int} {places : Nat} {x : Fraction}

/-- Rounding moves a magnitude by at most half a unit of its last place. -/
theorem abs_rounded_sub_le (places : Nat) (hn : 0 < x.num) (hd : 0 < x.den) :
    |(rounded places x).toRat - x.toRat| ≤ 1 / 2 * 10 ^ (x.order 10 - places) := by
  obtain ⟨-, j, hnearest, hvalue⟩ := scientific_spec places hn hd
  have hunit : (0 : ℚ) < 10 ^ (x.order 10 - places) := by positivity
  have hx :
      x.toRat = x.toRat * 10 ^ ((places : Int) - x.order 10) * 10 ^ (x.order 10 - places) := by
    rw [mul_assoc, ← zpow_add₀ (by norm_num), sub_add_sub_cancel, sub_self, zpow_zero, mul_one]
  rw [rounded, Decimal.toRat, hvalue, hx, ← sub_mul, abs_mul, abs_of_pos hunit, abs_sub_comm]
  exact mul_le_mul_of_nonneg_right hnearest.abs_sub_le hunit.le

theorem abs_rounded_sub_le_of_places (hd : 0 < x.den) (hp : 16 ≤ places) :
    |(rounded places x).toRat - x.toRat| ≤ x.toRat / (2 * 10 ^ 16) := by
  rcases Nat.eq_zero_or_pos x.num with hzero | hn
  · have hx : x.toRat = 0 := (Fraction.toRat_eq_zero_iff hd).mpr hzero
    simp [rounded, Decimal.toRat, scientific_zero places hzero, hx]
  · have hlow : (10 : ℚ) ^ x.order 10 ≤ x.toRat := by
      exact_mod_cast (Fraction.order_spec (by decide) hn hd).1
    calc |(rounded places x).toRat - x.toRat|
        ≤ 1 / 2 * 10 ^ (x.order 10 - places) := abs_rounded_sub_le places hn hd
      _ ≤ 1 / 2 * 10 ^ (x.order 10 - 16) := by
          gcongr
          · norm_num
          · exact_mod_cast hp
      _ = 10 ^ x.order 10 / (2 * 10 ^ 16) := by
          rw [zpow_sub₀ (by norm_num)]
          norm_cast
          ring
      _ ≤ x.toRat / (2 * 10 ^ 16) := by gcongr

/-- Half a unit of the sixteenth place is less than the rounding interval reaches. -/
theorem div_lt_reachBelow (hc : Canonical m e) : (m : ℚ) / (2 * 10 ^ 16) < reachBelow m e := by
  rw [div_lt_iff₀ (by positivity)]
  unfold reachBelow
  split
  · rename_i hpower
    rw [hpower.1]
    norm_num
  · have hlt : (m : ℚ) < 0x20000000000000 := by exact_mod_cast hc.significand_lt
    linarith

theorem inside_rounded (hc : Canonical m e) (hp : 16 ≤ places) :
    Inside m e (rounded places (magnitude m e)).toRat := by
  have hclose := abs_rounded_sub_le_of_places (den_magnitude_pos m e) hp
  have hreach : m * 2 ^ e / (2 * 10 ^ 16) < reachBelow m e * 2 ^ e := by
    rw [mul_div_right_comm]
    exact mul_lt_mul_of_pos_right (div_lt_reachBelow hc) (by positivity)
  have hhalf : reachBelow m e * 2 ^ e ≤ 1 / 2 * 2 ^ e :=
    mul_le_mul_of_nonneg_right (reachBelow_le m e) (by positivity)
  rw [toRat_magnitude, abs_le] at hclose
  constructor
  · rw [sub_mul]
    linarith
  · rw [add_mul]
    linarith

end Literal

/-! ## Reading a literal -/

open Binary64

/-- A number with or without a minus sign. -/
def Sqf.signedDecimal? (s : String) : Option (Bool × Decimal) :=
  match s.toList with
  | '-' :: cs => (decimal? (String.ofList cs)).map (true, ·)
  | _ => (decimal? s).map (false, ·)

theorem Sqf.signedDecimal?_signText (negative : Bool) {c : Char} (hc : c ≠ '-') (cs : List Char) :
    signedDecimal? (String.ofList (Literal.signText negative ++ c :: cs)) =
      (decimal? (String.ofList (c :: cs))).map (negative, ·) := by
  rw [signedDecimal?, String.toList_ofList]
  cases negative with
  | true => rfl
  | false =>
    simp only [Literal.signText]
    split
    · rename_i heq
      exact absurd (List.cons.inj heq).1 hc
    · rfl

/-- The number `v` has the sign of a decimal, also where both are zero, and numbers of another value
are farther away from it. -/
structure Decimal.NearestIs (negative : Bool) (d : Decimal) (v : Float) : Prop where
  sign_eq : v.toBits.toNat.testBit 63 = negative
  nearer : ∀ w : Float, (ofFloat w).isFinite = true → (ofFloat w).toRat ≠ (ofFloat v).toRat →
    |Literal.sign negative * d.toRat - (ofFloat v).toRat| <
      |Literal.sign negative * d.toRat - (ofFloat w).toRat|

theorem Binary64.Inside.nearestIs {v : Float} {negative : Bool} {m : Nat} {e : Int} {d : Decimal}
    (hv : ofFloat v = .finite negative m e) (h : Inside m e d.toRat) : d.NearestIs negative v where
  sign_eq := Literal.testBit_eq_of_ofFloat hv
  nearer := by
    intro w hw hne
    unfold isFinite at hw
    split at hw
    · rename_i other n k hfinite
      rw [hfinite, hv] at hne ⊢
      have hd : 0 ≤ d.toRat := by
        rw [Decimal.toRat]
        positivity
      exact h.abs_sign_sub_lt (canonical_of_ofBits hv) (canonical_of_ofBits hfinite) hd hne
    · cases hw

namespace Literal

/-- The decimal that is written for a finite value lies inside its rounding interval. -/
theorem exists_inside {v : Float} {places : Nat} (hv : (ofFloat v).isFinite = true)
    (hp : 16 ≤ places) :
    ∃ negative m e d, ofFloat v = .finite negative m e ∧
      Sqf.signedDecimal? (String.ofList (text places v)) = some (negative, d) ∧
      Inside m e d.toRat := by
  unfold isFinite at hv
  split at hv
  · rename_i negative m e hfinite
    refine ⟨negative, m, e, _, hfinite, ?_, inside_rounded (canonical_of_ofBits hfinite) hp⟩
    obtain ⟨c, cs, htext, hc, -, hdecimal⟩ := Sqf.exists_numeral places (den_magnitude_pos m e)
    have hminus : c ≠ '-' := by
      rintro rfl
      cases hc
    rw [text_of_finite hfinite]
    rw [htext] at hdecimal ⊢
    rw [Sqf.numeral, Sqf.signedDecimal?_signText negative hminus, ← Sqf.numeral, hdecimal]
    rfl
  · cases hv

/-- A literal with as many places is read as the number that it was written for, so that numbers with
other bits have other literals. -/
theorem sixteen_places_suffice {v : Float} {places : Nat} (hv : (ofFloat v).isFinite = true)
    (hlow : 16 ≤ places) (hhigh : places ≤ maxPlaces) :
    (∃ t negative d, format? v places = some t ∧ Sqf.signedDecimal? t = some (negative, d) ∧
      d.NearestIs negative v ∧ d.toFloat? negative = some v) ∧
    ∀ w, (ofFloat w).isFinite = true → w.toBits ≠ v.toBits →
      format? w places ≠ format? v places := by
  have hformat (u : Float) : format? u places = some (String.ofList (text places u)) := by
    rw [format?, if_pos hhigh]
  obtain ⟨negative, m, e, d, hfinite, hread, hinside⟩ := exists_inside hv hlow
  have hfloat := Decimal.toFloat?_eq_some hfinite hinside.roundsTo
  refine ⟨⟨_, negative, d, hformat v, hread, hinside.nearestIs hfinite, hfloat⟩, ?_⟩
  intro w hw hbits hsame
  obtain ⟨negative', m', e', d', hfinite', hread', hinside'⟩ := exists_inside hw hlow
  have hfloat' := Decimal.toFloat?_eq_some hfinite' hinside'.roundsTo
  -- the same text is read as the same decimal, and this as one number
  rw [hformat, hformat, Option.some.injEq] at hsame
  rw [hsame, hread] at hread'
  cases hread'
  rw [hfloat] at hfloat'
  cases hfloat'
  exact hbits rfl

/-- The least positive number and the next one. -/
theorem least_told_from_next :
    ((ofFloat 5e-324).isFinite = true ∧ 16 ≤ 16 ∧ 16 ≤ maxPlaces) ∧
      ((ofFloat 1e-323).isFinite = true ∧ (1e-323 : Float).toBits ≠ (5e-324 : Float).toBits) ∧
      format? 5e-324 16 = some "4.9406564584124654e-324" ∧
      (∃ negative d, Sqf.signedDecimal? "4.9406564584124654e-324" = some (negative, d) ∧
        d.NearestIs negative 5e-324 ∧ d.toFloat? negative = some 5e-324) ∧
      format? 1e-323 16 ≠ format? 5e-324 16 := by
  have hleast : (ofFloat 5e-324).isFinite = true := by decide +kernel
  have hnext : (ofFloat 1e-323).isFinite = true := by decide +kernel
  have hbits : (1e-323 : Float).toBits ≠ (5e-324 : Float).toBits := by decide +kernel
  have hplaces : 16 ≤ maxPlaces := by decide
  have htext : format? 5e-324 16 = some "4.9406564584124654e-324" := by decide +kernel
  obtain ⟨⟨t, negative, d, ht, hread⟩, hother⟩ :=
    sixteen_places_suffice hleast (le_refl 16) hplaces
  rw [htext] at ht
  cases ht
  exact ⟨⟨hleast, le_refl 16, hplaces⟩, ⟨hnext, hbits⟩, htext, ⟨negative, d, hread⟩,
    hother _ hnext hbits⟩

end Literal

end RegressionScript
