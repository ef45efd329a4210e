import Mathlib
import RegressionScript.Number.Binary64

/-!
# Bit patterns of floating-point numbers

What the three fields of a bit pattern decide: which numbers are zero, what negation changes, and
which significands and exponents a finite number has.
-/

namespace RegressionScript

set_option autoImplicit false

namespace Binary64

open Float.Model

theorem toNat_unpackExponent (b : BitVec 64) :
    (@UnpackedFloat.unpackExponent Format.binary64 b).toNat =
      b.toNat / 0x10000000000000 % 2048 := by
  simp [UnpackedFloat.unpackExponent, Nat.shiftRight_eq_div_pow]

theorem toNat_unpackMantissa (b : BitVec 64) :
    (@UnpackedFloat.unpackMantissa Format.binary64 b).toNat = b.toNat % 0x10000000000000 := by
  simp [UnpackedFloat.unpackMantissa]

theorem toNat_unpackSign (b : BitVec 64) :
    (@UnpackedFloat.unpackSign Format.binary64 b).toNat = b.toNat / 0x8000000000000000 % 2 := by
  simp [UnpackedFloat.unpackSign, Nat.shiftRight_eq_div_pow]

/-! ## Zeros -/

theorem unpack_eq_zero_iff (b : BitVec 64) :
    (∃ s, UnpackedFloat.unpack Format.binary64 b = .zero s) ↔
      b.toNat / 0x10000000000000 % 2048 = 0 ∧ b.toNat % 0x10000000000000 = 0 := by
  have he : ∀ v : BitVec 11, v.toNat = 0 ↔ v = 0#11 := fun v => by
    rw [← BitVec.toNat_inj]
    simp
  have hm : ∀ v : BitVec 52, v.toNat = 0 ↔ v = 0#52 := fun v => by
    rw [← BitVec.toNat_inj]
    simp
  rw [← toNat_unpackExponent, ← toNat_unpackMantissa, he, hm]
  simp only [UnpackedFloat.unpack]
  split
  · rename_i hones
    rw [hones]
    split <;> simp
  · split
    · split <;> simp_all
    · simp_all

theorem compare_zero_eq_iff (u : UnpackedFloat) (s : UnpackedFloat.Sign) :
    u.compare (.zero s) = some .eq ↔ ∃ t, u = .zero t := by
  cases u with
  | infinity t => cases t <;> simp [UnpackedFloat.compare]
  | notANumber => simp [UnpackedFloat.compare]
  | zero t => simp [UnpackedFloat.compare]
  | finite t m e h => cases t <;> simp [UnpackedFloat.compare]

theorem isZero_ofBits_iff (n : Nat) :
    (ofBits n).isZero = true ↔
      n / 0x10000000000000 % 2048 = 0 ∧ n % 0x10000000000000 = 0 := by
  simp only [ofBits]
  split
  · split <;> simp_all [isZero]
  · split <;> simp_all [isZero]

/-- Exactly the two zeros are equal to zero as floating-point numbers. -/
theorem isZero_ofFloat (x : Float) : (ofFloat x).isZero = (x == 0.0) := by
  have hzero : (0.0 : Float).toModel.unpack = .zero .positive := rfl
  have hbeq : (x == 0.0) = true ↔ ∃ s, x.toModel.unpack = .zero s := by
    rw [← compare_zero_eq_iff _ .positive, ← hzero]
    change (UnpackedFloat.compare _ _ == some .eq) = true ↔ _
    exact beq_iff_eq
  rw [Bool.eq_iff_iff, hbeq, ofFloat, isZero_ofBits_iff]
  exact (unpack_eq_zero_iff _).symm

/-! ## Finite numbers -/

variable {v : Float} {negative : Bool} {significand : Nat} {exponent : Int} {n : Nat}

theorem ofBits_eq_finite_iff :
    ofBits n = .finite negative significand exponent ↔
      decide (n / 0x8000000000000000 % 2 = 1) = negative ∧
        (n / 0x10000000000000 % 2048 = 0 ∧
            significand = n % 0x10000000000000 ∧ exponent = -1074 ∨
          n / 0x10000000000000 % 2048 ≠ 0 ∧ n / 0x10000000000000 % 2048 ≠ 2047 ∧
            significand = 0x10000000000000 + n % 0x10000000000000 ∧
            exponent = (n / 0x10000000000000 % 2048 : Nat) - 1075) := by
  unfold ofBits
  dsimp only
  by_cases hones : n / 0x10000000000000 % 2048 = 2047
  · rw [if_pos hones]
    split <;> simp [hones]
  · by_cases hzero : n / 0x10000000000000 % 2048 = 0
    · simp [hzero, eq_comm]
    · simp [hones, hzero, eq_comm]

/-- The significand is below `2 ^ 53`, and at least `2 ^ 52` unless the exponent is the least. -/
structure Canonical (significand : Nat) (exponent : Int) : Prop where
  significand_lt : significand < 0x20000000000000
  le_exponent : -1074 ≤ exponent
  exponent_le : exponent ≤ 971
  normal : exponent = -1074 ∨ 0x10000000000000 ≤ significand

theorem canonical_of_ofBits (h : ofBits n = .finite negative significand exponent) :
    Canonical significand exponent := by
  rw [ofBits_eq_finite_iff] at h
  constructor <;> omega

/-- The bit pattern without the sign. -/
def pattern (significand : Nat) (exponent : Int) : Nat :=
  (exponent + 1074).toNat * 0x10000000000000 + significand

theorem eq_pattern_of_ofBits (hn : n < 0x10000000000000000)
    (h : ofBits n = .finite negative significand exponent) :
    n = pattern significand exponent + if negative then 0x8000000000000000 else 0 := by
  rw [ofBits_eq_finite_iff] at h
  obtain ⟨rfl, h⟩ := h
  rw [pattern]
  simp only [decide_eq_true_eq]
  split <;> omega

/-! ## Negation -/

/-- Negation changes the sign bit and no other. -/
theorem pack_neg {u : UnpackedFloat} (h : u ≠ .notANumber) :
    UnpackedFloat.unpackSign (u.neg.pack Format.binary64) =
        ~~~ UnpackedFloat.unpackSign (u.pack Format.binary64) ∧
      UnpackedFloat.unpackExponent (u.neg.pack Format.binary64) =
        UnpackedFloat.unpackExponent (u.pack Format.binary64) ∧
      UnpackedFloat.unpackMantissa (u.neg.pack Format.binary64) =
        UnpackedFloat.unpackMantissa (u.pack Format.binary64) := by
  have hsign (s : UnpackedFloat.Sign) : (-s).toBitVec = ~~~ s.toBitVec := by
    cases s <;> rfl
  cases u with
  | infinity s => simp [UnpackedFloat.neg, UnpackedFloat.pack, UnpackedFloat.packedInfinity, hsign]
  | notANumber => exact absurd rfl h
  | zero s => simp [UnpackedFloat.neg, UnpackedFloat.pack, UnpackedFloat.packedZero, hsign]
  | finite s m e hm =>
    simp only [UnpackedFloat.neg, UnpackedFloat.pack]
    split
    · simp [UnpackedFloat.packedInfinity, hsign]
    · split <;> simp [hsign]

theorem ofFloat_neg (h : ofFloat v = .finite negative significand exponent) :
    ofFloat (-v) = .finite (!negative) significand exponent := by
  have hpack : v.toModel.unpack.pack Format.binary64 = v.toBits.toBitVec :=
    UnpackedFloat.pack_unpack_of_valid v.toModel.valid
  have hneg : (-v).toBits.toNat = (v.toModel.unpack.neg.pack Format.binary64).toNat := rfl
  have hnan : v.toModel.unpack ≠ .notANumber := by
    intro hnan
    have hbits : v.toBits = 0x7ff8000000000000 := by
      rw [← UInt64.toBitVec_inj]
      exact (UnpackedFloat.unpack_eq_notANumber_iff_of_valid v.toModel.valid).mp hnan
    rw [ofFloat, hbits] at h
    cases h
  obtain ⟨hsign, hexponent, hmantissa⟩ := pack_neg hnan
  rw [hpack, ← BitVec.toNat_inj] at hsign hexponent hmantissa
  rw [toNat_unpackExponent, toNat_unpackExponent, ← hneg] at hexponent
  rw [toNat_unpackMantissa, toNat_unpackMantissa, ← hneg] at hmantissa
  rw [BitVec.toNat_not, toNat_unpackSign, toNat_unpackSign, ← hneg] at hsign
  change _ = 1 - v.toBits.toNat / 0x8000000000000000 % 2 at hsign
  rw [ofFloat, ofBits_eq_finite_iff] at h ⊢
  rw [hexponent, hmantissa]
  refine ⟨?_, h.2⟩
  rw [← h.1, ← decide_not, decide_eq_decide]
  omega

end Binary64

end RegressionScript
