import Mathlib
import RegressionScript.Json.Reader
import RegressionScript.Json.Writer
import RegressionScript.Proofs.Shortest

/-!
# Numbers in JSON

The reader takes a number apart into the digits before and after its point and its exponent. All
spellings of the writer read as the decimal that they are made from, or as one that is equal to it.
-/

namespace RegressionScript

set_option autoImplicit false

namespace Decimal

/-- The decimal that is read where another one is written. Only whole numbers without exponent
differ: their zeros are digits as well. -/
def spelled (d : Decimal) : Decimal :=
  if 0 ≤ d.exponent ∧ (d.digits = 0 ∨ (-5 ≤ d.point - 1 ∧ d.point - 1 ≤ 15)) then
    ⟨d.digits * 10 ^ d.exponent.toNat, 0⟩
  else d

theorem toRat_spelled (d : Decimal) : d.spelled.toRat = d.toRat := by
  unfold spelled
  split
  · rename_i h
    rw [Decimal.toRat, Decimal.toRat, zpow_zero, mul_one, Nat.cast_mul, Nat.cast_pow,
      ← zpow_natCast, Int.toNat_of_nonneg h.1]
    rfl
  · rfl

theorem width_spelled_le {d : Decimal} {k : Nat} (h : Digits.width 10 d.digits ≤ k) (hk : 16 ≤ k) :
    Digits.width 10 d.spelled.digits ≤ k := by
  unfold spelled
  split
  · rename_i hplain
    apply Digits.width_le_of_lt (by decide)
    rcases hplain.2 with hzero | hpoint
    · rw [hzero, Nat.zero_mul]
      positivity
    · have hsum : Digits.width 10 d.digits + d.exponent.toNat ≤ k := by
        have := hplain.1
        rw [point] at hpoint
        omega
      calc d.digits * 10 ^ d.exponent.toNat
          < 10 ^ Digits.width 10 d.digits * 10 ^ d.exponent.toNat :=
            Nat.mul_lt_mul_of_pos_right (Digits.lt_pow_width (by decide) d.digits) (by positivity)
        _ = 10 ^ (Digits.width 10 d.digits + d.exponent.toNat) := (pow_add _ _ _).symm
        _ ≤ 10 ^ k := Nat.pow_le_pow_right (by decide) hsum
  · exact h

end Decimal

namespace Json.Reader

/-! ## Parts of a number -/

variable {a b whole rest ds : List Char}

theorem digits1?_append (ha : ∀ c ∈ a, c.isDigit = true) (hne : a ≠ [])
    (hb : ∀ c ∈ b.head?, c.isDigit = false) : digits1? (a ++ b) = some (a, b) := by
  have htake : (a ++ b).takeWhile Char.isDigit = a := by
    rw [List.takeWhile_append_of_pos ha]
    cases b with
    | nil => simp
    | cons c b => simp [hb c rfl]
  have hdrop : (a ++ b).dropWhile Char.isDigit = b := by
    rw [List.dropWhile_append_of_pos ha]
    cases b with
    | nil => rfl
    | cons c b => simp [hb c rfl]
  rw [digits1?, htake, hdrop]
  cases a with
  | nil => exact absurd rfl hne
  | cons c a => rfl

/-- Digits that may stand before the point. -/
structure IsWhole (ds : List Char) : Prop where
  isDigit : ∀ c ∈ ds, c.isDigit = true
  ne_nil : ds ≠ []
  leading : ds.head? = some '0' → ds = ['0']

theorem isWhole_of_head?_ne (hds : ∀ c ∈ ds, c.isDigit = true) (hne : ds ≠ [])
    (hhead : ds.head? ≠ some '0') : IsWhole ds :=
  ⟨hds, hne, fun h => absurd h hhead⟩

theorem isWhole_zero : IsWhole ['0'] :=
  ⟨by simp, by simp, fun _ => rfl⟩

theorem isWhole_ofNat (n : Nat) : IsWhole (Digits.ofNat n) := by
  rcases Nat.eq_zero_or_pos n with rfl | hn
  · have hzero : Digits.ofNat 0 = ['0'] := Digits.ofNat_eq_toDigits 0
    rw [hzero]
    exact isWhole_zero
  · exact isWhole_of_head?_ne Digits.isDigit_of_mem_padded (Digits.ofNat_ne_nil n)
      (Digits.head?_ofNat hn)

theorem isDigit_of_mem_zeros {k : Nat} : ∀ c ∈ List.replicate k '0', c.isDigit = true := by
  intro c hc
  rw [List.eq_of_mem_replicate hc]
  rfl

theorem IsWhole.whole? (h : IsWhole whole) (hrest : ∀ c ∈ rest.head?, c.isDigit = false) :
    whole? (whole ++ rest) = some (whole, rest) := by
  rw [Reader.whole?, digits1?_append h.isDigit h.ne_nil hrest]
  split
  · rename_i heq
    cases heq
    cases h.leading rfl
  · rfl

/-- The text of the digits after a point, if there are any. -/
def fractionText : Option (List Char) → List Char
  | none => []
  | some ds => '.' :: ds

/-- The text of an exponent with its sign. -/
def exponentText : Option Int → List Char
  | none => []
  | some e => 'e' :: (if e < 0 then '-' else '+') :: Digits.ofNat e.natAbs

/-- What may follow a value: the end of the text, or what separates and ends items. -/
def Ends (rest : List Char) : Prop :=
  ∀ c ∈ rest.head?, c = ',' ∨ c = ']' ∨ c = '\x7d'

theorem exponent?_exponentText (hrest : Ends rest) (exponent : Option Int) :
    exponent? (exponentText exponent ++ rest) = some (exponent, rest) := by
  cases exponent with
  | none =>
    cases rest with
    | nil => rfl
    | cons c rest =>
      rcases hrest c rfl with rfl | rfl | rfl <;> rfl
  | some e =>
    have hdigits : digits1? (Digits.ofNat e.natAbs ++ rest) =
        some (Digits.ofNat e.natAbs, rest) := by
      apply digits1?_append Digits.isDigit_of_mem_padded (Digits.ofNat_ne_nil _)
      intro c hc
      rcases hrest c hc with rfl | rfl | rfl <;> rfl
    by_cases he : e < 0
    · simp [exponentText, he, exponent?, hdigits, Digits.value_ofNat, abs_of_neg he]
    · simp [exponentText, he, exponent?, hdigits, Digits.value_ofNat, abs_of_nonneg (not_lt.mp he)]

theorem fraction?_fractionText {fraction : Option (List Char)} {exponent : Option Int}
    (hfraction : ∀ ds ∈ fraction, ds ≠ [] ∧ ∀ c ∈ ds, c.isDigit = true) (hrest : Ends rest) :
    fraction? (fractionText fraction ++ (exponentText exponent ++ rest)) =
      some (fraction, exponentText exponent ++ rest) := by
  have hend : ∀ c ∈ (exponentText exponent ++ rest).head?, c.isDigit = false ∧ c ≠ '.' := by
    intro c hc
    cases exponent with
    | none => rcases hrest c hc with rfl | rfl | rfl <;> decide
    | some e => cases hc; decide
  cases fraction with
  | none =>
    rw [fractionText, List.nil_append]
    generalize exponentText exponent ++ rest = cs at hend
    unfold fraction?
    split
    · exact absurd rfl (hend '.' rfl).2
    · rfl
  | some ds =>
    obtain ⟨hne, hds⟩ := hfraction ds rfl
    rw [fractionText, List.cons_append, fraction?,
      digits1?_append hds hne fun c hc => (hend c hc).1]
    rfl

/-- A number is put together from its parts. -/
theorem unsigned?_append (negative : Bool) {fraction : Option (List Char)} {exponent : Option Int}
    (hwhole : IsWhole whole)
    (hfraction : ∀ ds ∈ fraction, ds ≠ [] ∧ ∀ c ∈ ds, c.isDigit = true) (hrest : Ends rest) :
    unsigned? negative (whole ++ (fractionText fraction ++ (exponentText exponent ++ rest))) =
      some (.number negative
        ⟨Digits.value (whole ++ trimmed (fraction.getD [])),
          exponent.getD 0 - (trimmed (fraction.getD [])).length⟩
        (fraction.isNone && exponent.isNone), rest) := by
  have hend : ∀ c ∈ (fractionText fraction ++ (exponentText exponent ++ rest)).head?,
      c.isDigit = false := by
    intro c hc
    cases fraction with
    | some ds => cases hc; decide
    | none =>
      cases exponent with
      | none => rcases hrest c hc with rfl | rfl | rfl <;> decide
      | some e => cases hc; decide
  simp only [unsigned?, hwhole.whole? hend, fraction?_fractionText hfraction hrest,
    exponent?_exponentText hrest, Option.bind_eq_bind, Option.bind_some]

/-! ## Spellings of the writer -/

theorem trimmed_eq_self (h : ds.getLast? ≠ some '0') : trimmed ds = ds := by
  rw [List.getLast?_eq_head?_reverse] at h
  rw [trimmed]
  generalize hrev : ds.reverse = es at h
  have hes : es.dropWhile (· == '0') = es := by
    cases es with
    | nil => rfl
    | cons c es =>
      have hc : (c == '0') = false := by simpa using h
      simp [hc]
  rw [hes, ← hrev, List.reverse_reverse]

theorem unsigned?_natural (negative : Bool) (n : Nat) (hrest : Ends rest) :
    unsigned? negative (Writer.natural n ++ rest) =
      some (.number negative ⟨n, 0⟩ true, rest) := by
  have h := @unsigned?_append _ rest negative none none (isWhole_ofNat n) (by simp) hrest
  simpa [fractionText, exponentText, trimmed, Digits.value_ofNat, Writer.natural] using h

/-- A whole number with all its zeros, and one after the point. -/
theorem unsigned?_zeros (negative : Bool) {n : Nat} (k : Nat) (hn : 0 < n ∨ k = 0)
    (hrest : Ends rest) :
    unsigned? negative (Digits.ofNat n ++ List.replicate k '0' ++ ['.', '0'] ++ rest) =
      some (.number negative ⟨n * 10 ^ k, 0⟩ false, rest) := by
  have hwhole : IsWhole (Digits.ofNat n ++ List.replicate k '0') := by
    rcases hn with hn | rfl
    · apply isWhole_of_head?_ne
      · exact List.forall_mem_append.mpr ⟨Digits.isDigit_of_mem_padded, isDigit_of_mem_zeros⟩
      · simp [Digits.ofNat_ne_nil]
      · rw [List.head?_append_of_ne_nil _ (Digits.ofNat_ne_nil n)]
        exact Digits.head?_ofNat hn
    · rw [List.replicate_zero, List.append_nil]
      exact isWhole_ofNat n
  have h := @unsigned?_append _ rest negative (some ['0']) none hwhole (by simp) hrest
  simpa [fractionText, exponentText, trimmed, Digits.value_append, Digits.value_ofNat,
    Digits.value_replicate_zero] using h

/-- The first `k` digits before the point, and the others after it if there are any. -/
theorem unsigned?_split (negative : Bool) {n k : Nat} (exponent : Option Int) (hn : n % 10 ≠ 0)
    (hk : 0 < k) (hsome : k < (Digits.ofNat n).length ∨ exponent.isSome = true)
    (hle : k ≤ (Digits.ofNat n).length) (hrest : Ends rest) :
    unsigned? negative ((Digits.ofNat n).take k ++
        ((if (Digits.ofNat n).drop k = [] then [] else '.' :: (Digits.ofNat n).drop k) ++
          (exponentText exponent ++ rest))) =
      some (.number negative ⟨n, exponent.getD 0 + k - (Digits.ofNat n).length⟩ false, rest) := by
  have hwhole : IsWhole ((Digits.ofNat n).take k) := by
    apply isWhole_of_head?_ne
    · exact fun c hc => Digits.isDigit_of_mem_padded c (List.mem_of_mem_take hc)
    · rw [ne_eq, List.take_eq_nil_iff, not_or]
      exact ⟨hk.ne', Digits.ofNat_ne_nil n⟩
    · rw [List.head?_take, if_neg hk.ne']
      exact Digits.head?_ofNat (by omega)
  by_cases hnil : (Digits.ofNat n).drop k = []
  · have hlength : k = (Digits.ofNat n).length := hle.antisymm (List.drop_eq_nil_iff.mp hnil)
    obtain ⟨e, rfl⟩ : ∃ e, exponent = some e :=
      Option.isSome_iff_exists.mp (hsome.resolve_left (by omega))
    have h := @unsigned?_append _ rest negative none (some e) hwhole (by simp) hrest
    rw [if_pos hnil]
    simpa [fractionText, trimmed, hlength, Digits.value_ofNat] using h
  · have htrimmed : trimmed ((Digits.ofNat n).drop k) = (Digits.ofNat n).drop k := by
      apply trimmed_eq_self
      rw [List.drop_eq_nil_iff] at hnil
      rw [List.getLast?_drop, if_neg hnil]
      exact Digits.getLast?_ofNat hn
    have hfraction : ∀ ds ∈ some ((Digits.ofNat n).drop k),
        ds ≠ [] ∧ ∀ c ∈ ds, c.isDigit = true := by
      rintro _ ⟨⟩
      exact ⟨hnil, fun c hc => Digits.isDigit_of_mem_padded c (List.mem_of_mem_drop hc)⟩
    have h := @unsigned?_append _ rest negative _ exponent hwhole hfraction hrest
    rw [Option.getD_some, htrimmed, List.take_append_drop, Digits.value_ofNat, List.length_drop,
      Nat.cast_sub hle, sub_sub_eq_add_sub] at h
    rw [if_neg hnil]
    exact h

/-- Zeros between the point and the digits. -/
theorem unsigned?_small (negative : Bool) {n : Nat} (k : Nat) (hn : n % 10 ≠ 0)
    (hrest : Ends rest) :
    unsigned? negative ('0' :: '.' :: (List.replicate k '0' ++ Digits.ofNat n) ++ rest) =
      some (.number negative ⟨n, -(k + (Digits.ofNat n).length)⟩ false, rest) := by
  have hne : List.replicate k '0' ++ Digits.ofNat n ≠ [] := by simp [Digits.ofNat_ne_nil]
  have htrimmed : trimmed (List.replicate k '0' ++ Digits.ofNat n) =
      List.replicate k '0' ++ Digits.ofNat n := by
    apply trimmed_eq_self
    rw [List.getLast?_append_of_ne_nil _ (Digits.ofNat_ne_nil n)]
    exact Digits.getLast?_ofNat hn
  have hfraction : ∀ ds ∈ some (List.replicate k '0' ++ Digits.ofNat n),
      ds ≠ [] ∧ ∀ c ∈ ds, c.isDigit = true := by
    rintro _ ⟨⟩
    exact ⟨hne, List.forall_mem_append.mpr ⟨isDigit_of_mem_zeros, Digits.isDigit_of_mem_padded⟩⟩
  have hvalue : Digits.value (['0'] ++ (List.replicate k '0' ++ Digits.ofNat n)) = n := by
    rw [Digits.value_append, Digits.value_append, Digits.value_replicate_zero, Digits.value_ofNat,
      show Digits.value ['0'] = 0 by rfl, Nat.zero_mul, Nat.zero_mul, Nat.zero_add, Nat.zero_add]
  have h := @unsigned?_append _ rest negative _ none isWhole_zero hfraction hrest
  rw [Option.getD_some, htrimmed, hvalue] at h
  simpa [fractionText, exponentText, add_comm] using h

theorem unsigned?_scientific (negative : Bool) {d : Decimal} (hd : d.digits % 10 ≠ 0)
    (hrest : Ends rest) :
    unsigned? negative (Writer.scientific d ++ rest) = some (.number negative d false, rest) := by
  have hlength : 1 ≤ (Digits.ofNat d.digits).length := by
    rw [Digits.length_ofNat]
    omega
  have h := @unsigned?_split rest negative d.digits 1
    (some ((Digits.ofNat d.digits).length - 1 + d.exponent)) hd Nat.one_pos (.inr rfl) hlength hrest
  have hexponent : ((Digits.ofNat d.digits).length : Int) - 1 + d.exponent + (1 : Nat) -
      (Digits.ofNat d.digits).length = d.exponent := by
    push_cast
    ring
  rw [Option.getD_some, hexponent] at h
  simpa [Writer.scientific, exponentText] using h

theorem unsigned?_positional (negative : Bool) {d : Decimal} (hd : d.digits % 10 ≠ 0)
    (he : d.exponent < 0) (hrest : Ends rest) :
    unsigned? negative (d.positional ++ rest) = some (.number negative d false, rest) := by
  obtain ⟨n, e⟩ := d
  dsimp only at hd he
  rw [Decimal.positional]
  dsimp only
  rw [if_neg (not_le.mpr he)]
  split
  · rw [unsigned?_small negative _ hd hrest]
    congr 4
    omega
  · have hlt : ((Digits.ofNat n).length + e).toNat < (Digits.ofNat n).length := by omega
    have hdrop : (Digits.ofNat n).drop ((Digits.ofNat n).length + e).toNat ≠ [] := by
      rw [ne_eq, List.drop_eq_nil_iff]
      omega
    have h := @unsigned?_split rest negative n _ none hd (by omega) (.inl hlt) hlt.le hrest
    rw [if_neg hdrop, exponentText, List.nil_append, ← List.append_assoc] at h
    rw [h]
    congr 4
    rw [Option.getD_none]
    omega

/-- Numbers are read as they are spelled, if their digits do not end in a zero. -/
theorem unsigned?_magnitude (negative : Bool) {d : Decimal}
    (hd : d = ⟨0, 0⟩ ∨ d.digits % 10 ≠ 0) (hrest : Ends rest) :
    unsigned? negative (Writer.magnitude d ++ rest) =
      some (.number negative d.spelled false, rest) := by
  unfold Writer.magnitude Decimal.spelled
  dsimp only
  by_cases hplain : d.digits = 0 ∨ (-5 ≤ d.point - 1 ∧ d.point - 1 ≤ 15)
  · rw [if_pos hplain]
    by_cases he : 0 ≤ d.exponent
    · rw [if_pos he, if_pos ⟨he, hplain⟩, Decimal.positional, if_pos he]
      apply unsigned?_zeros negative d.exponent.toNat _ hrest
      rcases hd with rfl | hd
      · exact .inr rfl
      · exact .inl (by omega)
    · rw [if_neg he, if_neg fun h => he h.1, List.append_nil]
      exact unsigned?_positional negative (hd.resolve_left fun h => he (by simp [h])) (by omega)
        hrest
  · rw [if_neg hplain, if_neg fun h => hplain h.2]
    exact unsigned?_scientific negative (hd.resolve_left fun h => hplain (.inl (by simp [h]))) hrest

end Json.Reader

namespace Json

/-! ## Floating-point numbers -/

/-- A value that stands for a floating-point number: digits whose nearest number it is, not more of
them than are read one by one, or null for a number that is not finite. -/
inductive Holds : Json → Float → Prop where
  | number {v : Float} {negative : Bool} {significand : Nat} {exponent : Int} {d : Decimal}
      (integral : Bool) (hv : Binary64.ofFloat v = .finite negative significand exponent)
      (hrounds : Binary64.RoundsTo significand exponent d.toRat)
      (hwidth : Digits.width 10 d.digits ≤ maxDigits) : Holds (.number negative d integral) v
  | null {v : Float} (hv : (Binary64.ofFloat v).isFinite = false) : Holds .null v

variable {j : Json} {v w : Float}

theorem Holds.isSound (h : j.Holds v) : j.isSound = true := by
  cases h with
  | number integral hv hrounds hwidth =>
    rw [Json.isSound, Decimal.cut_eq_self hwidth, Decimal.toFloat?_eq_some hv hrounds]
    rfl
  | null hv => rfl

/-- Finite numbers are read from the values that stand for them, and no others are. -/
theorem Holds.float?_eq_some_iff (h : j.Holds v) :
    j.float? = some w ↔ w = v ∧ (Binary64.ofFloat v).isFinite = true := by
  cases h with
  | number integral hv hrounds hwidth =>
    rw [float?, Decimal.cut_eq_self hwidth, Decimal.toFloat?_eq_some hv hrounds, hv,
      Option.some.injEq, eq_comm]
    exact (and_iff_left rfl).symm
  | null hv => simp [float?, hv]

/-- The value in the text of a floating-point number. -/
def ofFloat (v : Float) : Json :=
  match Binary64.ofFloat v with
  | .finite negative significand exponent =>
    .number negative (Decimal.shortest .even significand exponent).spelled false
  | _ => .null

theorem holds_ofFloat (v : Float) : (ofFloat v).Holds v := by
  unfold ofFloat
  cases hv : Binary64.ofFloat v with
  | finite negative significand exponent =>
    obtain ⟨hrounds, hwidth, -⟩ := Decimal.shortest_spec .even (Binary64.canonical_of_ofBits hv)
    refine .number false hv ?_ (Decimal.width_spelled_le hwidth (by decide))
    rw [Decimal.toRat_spelled]
    exact hrounds
  | nan => exact .null (by rw [hv]; rfl)
  | infinite negative => exact .null (by rw [hv]; rfl)

end Json

end RegressionScript
