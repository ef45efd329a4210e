import Mathlib
import RegressionScript.Proofs.JsonNumbers
import RegressionScript.Proofs.Layout
import RegressionScript.Proofs.Sqf

/-!
# Tokens of the generated text

Blanks and all symbols but signs and points divide the text for the reader. Names, indices and
literals are one token each, and the literal of a value reads as its decimal.
-/

namespace RegressionScript

set_option autoImplicit false

/-! ## Texts of literals -/

namespace Literal

theorem normalize_append {a : List Char} (h : 'e' ∉ a) (b : List Char) :
    normalize (a ++ b) = a ++ normalize b := by
  have hspan : (a ++ b).span (· != 'e') =
      (a ++ (b.span (· != 'e')).1, (b.span (· != 'e')).2) := by
    have hne : ∀ c ∈ a, (c != 'e') = true := fun c hc => bne_iff_ne.mpr fun he => h (he ▸ hc)
    simp only [List.span_eq_takeWhile_dropWhile, List.takeWhile_append_of_pos hne,
      List.dropWhile_append_of_pos hne]
  unfold normalize
  rw [hspan]
  rcases b.span (· != 'e') with ⟨mantissa, _ | ⟨c, exponent⟩⟩
  · rfl
  · exact List.append_assoc _ _ _

theorem normalize_of_not_mem {cs : List Char} (h : 'e' ∉ cs) : normalize cs = cs := by
  have hnil := normalize_append h []
  rwa [List.append_nil, show normalize [] = [] from rfl, List.append_nil] at hnil

theorem not_mem_signText (negative : Bool) : 'e' ∉ signText negative := by
  cases negative <;> decide

/-- A sign and the digits of an exponent, at least two. -/
def exponentText (e : Int) : List Char :=
  (if e < 0 then '-' else '+') :: Digits.padded (max 2 (Digits.width 10 e.natAbs)) e.natAbs

theorem signedExponent_ofInt (e : Int) : signedExponent (Digits.ofInt e) = exponentText e := by
  have hpad : (Digits.ofNat e.natAbs).leftpad 2 '0' =
      Digits.padded (max 2 (Digits.width 10 e.natAbs)) e.natAbs := by
    rw [Digits.ofNat_eq_toDigits, Digits.padded_max_width (by decide)]
  rw [exponentText, Digits.ofInt, ← hpad]
  split
  · rfl
  · -- digits do not begin with a minus sign
    unfold signedExponent
    split
    · rename_i digits hdigits
      have hminus : '-' ∈ Digits.ofNat e.natAbs := hdigits ▸ List.mem_cons_self
      cases Digits.isDigit_of_mem_padded _ hminus
    · rfl

/-- What is written for a magnitude. -/
def magnitudeText (places : Nat) (x : Fraction) : List Char :=
  normalize (magnitudeForm places x)

variable {v : Float} {negative : Bool}

theorem text_of_nan (h : Binary64.ofFloat v = .nan) (places : Nat) :
    text places v = "NaN".toList := by
  have hnot : 'e' ∉ "NaN".toList := by decide
  rw [text, exponentForm, h]
  exact normalize_of_not_mem hnot

theorem text_of_infinite (h : Binary64.ofFloat v = .infinite negative) (places : Nat) :
    text places v = signText negative ++ "inf".toList := by
  have hnot : 'e' ∉ signText negative ++ "inf".toList := by cases negative <;> decide
  rw [text, exponentForm, h]
  exact normalize_of_not_mem hnot

theorem text_of_finite {significand : Nat} {exponent : Int}
    (h : Binary64.ofFloat v = .finite negative significand exponent) (places : Nat) :
    text places v =
      signText negative ++ magnitudeText places (Binary64.magnitude significand exponent) := by
  rw [text, exponentForm, h]
  exact normalize_append (not_mem_signText negative) _

end Literal

namespace Sqf

/-! ## Separators -/

/-- Ends the name or number before it, whatever that is. -/
def separates (c : Char) : Bool :=
  !(Name.isWordChar c || c == '.' || c == '+' || c == '-')

def separator (c : Char) : List Token :=
  if Words.isBlank c then [] else [.symbol c]

variable {c d : Char} {a b cs chunk : List Char}

theorem continues_eq_false (h : separates c = true) (chunk : List Char) :
    continues chunk c = false := by
  simp only [separates, Bool.not_eq_true', Bool.or_eq_false_iff] at h
  unfold continues
  split <;> simp [h]

theorem lexFrom_cons_of_separates (h : separates c = true) :
    lexFrom chunk (c :: cs) = flush chunk ++ (separator c ++ lex cs) := by
  have hword : Name.isWordChar c = false := by
    simp only [separates, Bool.not_eq_true', Bool.or_eq_false_iff] at h
    exact h.1.1.1
  rw [lexFrom, continues_eq_false h, hword, separator, lex]
  cases Words.isBlank c <;> simp

theorem lex_cons (h : separates c = true) (cs : List Char) :
    lex (c :: cs) = separator c ++ lex cs := by
  rw [lex, lexFrom_cons_of_separates h]
  rfl

theorem lexFrom_append (hb : ∀ c ∈ b.head?, separates c = true) :
    lexFrom chunk (a ++ b) = lexFrom chunk a ++ lex b := by
  induction a generalizing chunk with
  | nil =>
    cases b with
    | nil => simp [lexFrom, lex, flush]
    | cons c b =>
      have hc := hb c rfl
      rw [List.nil_append, lexFrom_cons_of_separates hc, lexFrom, lex_cons hc]
  | cons c a ih =>
    rw [List.cons_append, lexFrom, lexFrom]
    split
    · exact ih
    · split
      · rw [ih, List.append_assoc]
      · split
        · rw [ih, List.append_assoc]
        · rw [ih, List.append_assoc, List.cons_append]

theorem lex_append (hb : ∀ c ∈ b.head?, separates c = true) : lex (a ++ b) = lex a ++ lex b :=
  lexFrom_append hb

/-- Text that begins with a separator leaves what stands before it as it is. -/
theorem lex_append_cons (h : separates c = true) (a b : List Char) :
    lex (a ++ c :: b) = lex a ++ (separator c ++ lex b) := by
  rw [lex_append (by simpa using h), lex_cons h]

theorem toNat_of_isWordChar (h : Name.isWordChar c = true) :
    48 ≤ c.toNat ∧ c.toNat ≤ 57 ∨ 65 ≤ c.toNat ∧ c.toNat ≤ 90 ∨ c.toNat = 95 ∨
      97 ≤ c.toNat ∧ c.toNat ≤ 122 := by
  simp only [Name.isWordChar, Char.isAlphanum, Char.isAlpha, Char.isUpper, Char.isLower,
    Char.isDigit, Bool.or_eq_true, Bool.and_eq_true, decide_eq_true_eq, beq_iff_eq,
    UInt32.le_iff_toNat_le, ge_iff_le] at h
  rcases h with ((h | h) | h) | rfl
  · exact .inr (.inl h)
  · exact .inr (.inr (.inr h))
  · exact .inl h
  · decide

theorem separates_of_isBlank (h : Words.isBlank c = true) : separates c = true := by
  simp only [Words.isBlank, Bool.or_eq_true, Bool.and_eq_true, decide_eq_true_eq, beq_iff_eq] at h
  have hword : Name.isWordChar c = false := by
    by_contra hc
    have := toNat_of_isWordChar (Bool.eq_true_of_not_eq_false hc)
    omega
  have hne {d : Char} (hd : d.toNat ∈ [43, 45, 46]) : (c == d) = false := by
    rw [beq_eq_false_iff_ne]
    rintro rfl
    simp only [List.mem_cons, List.not_mem_nil, or_false] at hd
    omega
  simp only [separates, hword, hne (by decide : '.'.toNat ∈ [43, 45, 46]),
    hne (by decide : '+'.toNat ∈ [43, 45, 46]), hne (by decide : '-'.toNat ∈ [43, 45, 46])]
  rfl

theorem divides_lex : Words.Divides lex where
  nil := rfl
  blank a b c hc := by
    rw [lex_append_cons (separates_of_isBlank hc), separator, if_pos hc, List.nil_append]

/-! ## Names and numbers -/

theorem isWordChar_of_isDigit (h : c.isDigit = true) : Name.isWordChar c = true := by
  simp [Name.isWordChar, Char.isAlphanum, h]

/-- A text that has begun takes in the word characters that follow. -/
theorem lexFrom_word (ha : ∀ c ∈ a, Name.isWordChar c = true) (hchunk : chunk ≠ []) :
    lexFrom chunk (a ++ b) = lexFrom (a.reverse ++ chunk) b := by
  induction a generalizing chunk with
  | nil => rfl
  | cons c a ih =>
    rw [List.forall_mem_cons] at ha
    have hc : continues chunk c = true := by
      rw [continues, List.getLast?_eq_some_getLast hchunk, ha.1]
      rfl
    rw [List.cons_append, lexFrom, hc, if_pos rfl, ih ha.2 (List.cons_ne_nil c chunk),
      List.reverse_cons, List.append_assoc, List.singleton_append]

theorem lexFrom_nil (hchunk : chunk ≠ []) :
    lexFrom chunk [] = [.text (String.ofList chunk.reverse)] := by
  cases chunk with
  | nil => exact absurd rfl hchunk
  | cons c chunk => rfl

theorem lex_cons_of_isWordChar (h : Name.isWordChar c = true) (cs : List Char) :
    lex (c :: cs) = lexFrom [c] cs := by
  rw [lex, lexFrom, if_neg (by simp [continues]), if_pos h]
  rfl

theorem lex_word (ha : ∀ c ∈ a, Name.isWordChar c = true) (hne : a ≠ []) :
    lex a = [.text (String.ofList a)] := by
  cases a with
  | nil => exact absurd rfl hne
  | cons c a =>
    rw [List.forall_mem_cons] at ha
    have hword : lexFrom [c] (a ++ []) = lexFrom (a.reverse ++ [c]) [] :=
      lexFrom_word ha.2 (List.cons_ne_nil c [])
    rw [List.append_nil] at hword
    rw [lex_cons_of_isWordChar ha.1, hword, lexFrom_nil (by simp)]
    simp

theorem lex_identifier {name : String} (h : Name.isIdentifier name = true) :
    lex name.toList = [.text name] := by
  have hword : name.toList ≠ [] ∧ ∀ c ∈ name.toList, Name.isWordChar c = true := by
    unfold Name.isIdentifier at h
    split at h
    · cases h
    · rename_i c cs hcs
      rw [hcs]
      simp only [Bool.and_eq_true, Bool.or_eq_true, beq_iff_eq, List.all_eq_true] at h
      refine ⟨List.cons_ne_nil c cs, ?_⟩
      rw [List.forall_mem_cons]
      refine ⟨?_, h.2⟩
      rcases h.1 with hc | hc
      · simp [Name.isWordChar, Char.isAlphanum, hc]
      · simp [Name.isWordChar, hc]
  rw [lex_word hword.2 hword.1, String.ofList_toList]

theorem lex_ofNat (n : Nat) : lex (Digits.ofNat n) = [.text (String.ofList (Digits.ofNat n))] := by
  apply lex_word _ (Digits.ofNat_ne_nil n)
  intro c hc
  exact isWordChar_of_isDigit (Digits.isDigit_of_mem_padded c hc)

theorem natural?_ofNat (n : Nat) : natural? (String.ofList (Digits.ofNat n)) = some n := by
  have hdigits : (Digits.ofNat n).all Char.isDigit = true :=
    List.all_eq_true.mpr Digits.isDigit_of_mem_padded
  rw [natural?, String.toList_ofList, if_pos ⟨Digits.ofNat_ne_nil n, hdigits⟩, Digits.value_ofNat]

/-! ## Literals -/

/-- A first digit, the digits after the point and an exponent. -/
def numeral (d : Char) (ds : List Char) (e : Int) : List Char :=
  d :: ((if ds = [] then [] else '.' :: ds) ++ 'e' :: Literal.exponentText e)

/-- The digits that are written for a magnitude. -/
theorem exists_digits (places : Nat) {x : Fraction} (hx : 0 < x.den) :
    ∃ d ds, Digits.padded (places + 1) (Literal.scientific places x).1 = d :: ds ∧
      Literal.magnitudeText places x = numeral d ds (Literal.scientific places x).2 ∧
      d.isDigit = true ∧ (∀ c ∈ ds, c.isDigit = true) ∧ ds.length = places ∧
      Digits.value (d :: ds) = (Literal.scientific places x).1 := by
  have hlength := Digits.length_padded (places + 1) (Literal.scientific places x).1
  have hvalue := Digits.value_padded (places + 1) (Literal.scientific places x).1
  obtain ⟨d, ds, hdigits⟩ := List.exists_cons_of_length_eq_add_one hlength
  have hmem : ∀ c ∈ d :: ds, c.isDigit = true := by
    rw [← hdigits]
    exact Digits.isDigit_of_mem_padded
  rw [List.forall_mem_cons] at hmem
  rw [hdigits, Nat.mod_eq_of_lt (Literal.scientific_lt places hx)] at hvalue
  rw [hdigits, List.length_cons, Nat.add_right_cancel_iff] at hlength
  have hnil : places = 0 ↔ ds = [] := by rw [← hlength, List.length_eq_zero_iff]
  refine ⟨d, ds, hdigits, ?_, hmem.1, hmem.2, hlength, hvalue⟩
  have hform : Literal.magnitudeForm places x =
      (d :: if ds = [] then [] else '.' :: ds) ++
        'e' :: Digits.ofInt (Literal.scientific places x).2 := by
    simp [Literal.magnitudeForm, hdigits, hnil]
  have hmantissa : 'e' ∉ d :: if ds = [] then [] else '.' :: ds := by
    intro he
    have hnot : ∀ c, c.isDigit = true → 'e' ≠ c := by
      rintro c hc rfl
      cases hc
    rcases List.mem_cons.mp he with he | he
    · exact hnot d hmem.1 he
    · split at he
      · cases he
      · rcases List.mem_cons.mp he with he | he
        · cases he
        · exact hnot 'e' (hmem.2 'e' he) rfl
  rw [Literal.magnitudeText, hform, Literal.normalize_append hmantissa, numeral,
    ← Literal.signedExponent_ofInt]
  rfl

variable {ds : List Char}

theorem exists_exponentText (e : Int) :
    ∃ (sign : Char) (es : List Char), (sign = '+' ∨ sign = '-') ∧ es ≠ [] ∧
      (∀ c ∈ es, c.isDigit = true) ∧ Literal.exponentText e = sign :: es := by
  refine ⟨_, _, ?_, ?_, Digits.isDigit_of_mem_padded, rfl⟩
  · split
    · exact .inr rfl
    · exact .inl rfl
  · apply List.ne_nil_of_length_pos
    rw [Digits.length_padded]
    omega

theorem lexFrom_exponent (hd : d.isDigit = true) (e : Int) :
    lexFrom (chunk ++ [d]) ('e' :: Literal.exponentText e) =
      [.text (String.ofList (d :: chunk.reverse ++ 'e' :: Literal.exponentText e))] := by
  obtain ⟨sign, es, hsign, -, hes, htext⟩ := exists_exponentText e
  have hcontinues : continues ('e' :: (chunk ++ [d])) sign = true := by
    rcases hsign with rfl | rfl <;> simp [continues, List.getLast?_cons, hd]
  have he : lexFrom (chunk ++ [d]) (['e'] ++ sign :: es) =
      lexFrom ('e' :: (chunk ++ [d])) (sign :: es) :=
    lexFrom_word (List.forall_mem_singleton.mpr (by decide)) (by simp)
  have hdigits : lexFrom (sign :: 'e' :: (chunk ++ [d])) (es ++ []) =
      lexFrom (es.reverse ++ sign :: 'e' :: (chunk ++ [d])) [] :=
    lexFrom_word (fun c hc => isWordChar_of_isDigit (hes c hc)) (by simp)
  rw [List.append_nil] at hdigits
  rw [List.singleton_append] at he
  rw [htext, he, lexFrom, hcontinues, if_pos rfl, hdigits, lexFrom_nil (by simp)]
  simp

theorem lex_numeral (hd : d.isDigit = true) (hds : ∀ c ∈ ds, c.isDigit = true) (e : Int) :
    lex (numeral d ds e) = [.text (String.ofList (numeral d ds e))] := by
  rw [numeral, lex_cons_of_isWordChar (isWordChar_of_isDigit hd)]
  split
  · exact @lexFrom_exponent d [] hd e
  · have hcontinues : continues [d] '.' = true := by simp [continues, hd]
    rw [List.cons_append, lexFrom, hcontinues, if_pos rfl,
      lexFrom_word (fun c hc => isWordChar_of_isDigit (hds c hc)) (by simp),
      ← List.singleton_append, ← List.append_assoc, lexFrom_exponent hd]
    simp

theorem exponent?_exponentText (e : Int) :
    Json.Reader.exponent? ('e' :: Literal.exponentText e) = some (some e, []) := by
  have hdigits : Json.Reader.digits1?
      (Digits.padded (max 2 (Digits.width 10 e.natAbs)) e.natAbs ++ []) =
        some (Digits.padded (max 2 (Digits.width 10 e.natAbs)) e.natAbs, []) := by
    apply Json.Reader.digits1?_append Digits.isDigit_of_mem_padded _ (by simp)
    apply List.ne_nil_of_length_pos
    rw [Digits.length_padded]
    omega
  have hvalue : Digits.value (Digits.padded (max 2 (Digits.width 10 e.natAbs)) e.natAbs) =
      e.natAbs := by
    rw [Digits.value_padded]
    apply Nat.mod_eq_of_lt
    exact (Digits.lt_pow_width (by decide) e.natAbs).trans_le
      (Nat.pow_le_pow_right (by decide) (Nat.le_max_right _ _))
  rw [List.append_nil] at hdigits
  rw [Literal.exponentText]
  by_cases he : e < 0
  · simp [he, Json.Reader.exponent?, hdigits, hvalue, abs_of_neg he]
  · simp [he, Json.Reader.exponent?, hdigits, hvalue, abs_of_nonneg (not_lt.mp he)]

theorem decimal?_numeral (hd : d.isDigit = true) (hds : ∀ c ∈ ds, c.isDigit = true) (e : Int) :
    decimal? (String.ofList (numeral d ds e)) = some ⟨Digits.value (d :: ds), e - ds.length⟩ := by
  have hfirst (cs : List Char) (hcs : ∀ c ∈ cs.head?, c.isDigit = false) :
      Json.Reader.digits1? ([d] ++ cs) = some ([d], cs) :=
    Json.Reader.digits1?_append (by simpa using hd) (by simp) hcs
  rw [decimal?, String.toList_ofList, numeral]
  by_cases hnil : ds = []
  · rw [if_pos hnil, List.nil_append, ← List.singleton_append, hfirst _ (by simp)]
    simp [Json.Reader.fraction?, exponent?_exponentText, hnil]
  · have hpoint : Json.Reader.digits1? (ds ++ 'e' :: Literal.exponentText e) =
        some (ds, 'e' :: Literal.exponentText e) := Json.Reader.digits1?_append hds hnil (by simp)
    rw [if_neg hnil, List.cons_append, ← List.singleton_append, hfirst _ (by simp)]
    simp [Json.Reader.fraction?, hpoint, exponent?_exponentText]

theorem not_mem_of_isDigit (hc : c.isDigit = false) (hcs : ∀ d ∈ cs, d.isDigit = true) :
    c ∉ cs := by
  intro hmem
  rw [hcs c hmem] at hc
  cases hc

/-- The only sign in a numeral is that of the exponent, and a digit follows it. -/
theorem attached_numeral {sign : Char} (hsign : sign = '+' ∨ sign = '-') (hd : d.isDigit = true)
    (hds : ∀ c ∈ ds, c.isDigit = true) (e : Int) : Signs.Attached sign (numeral d ds e) := by
  obtain ⟨first, es, -, hne, hes, htext⟩ := exists_exponentText e
  have hdigit : sign.isDigit = false := by
    rcases hsign with rfl | rfl <;> rfl
  have hmantissa : sign ∉ d :: ((if ds = [] then [] else '.' :: ds) ++ ['e']) := by
    have hsd : sign ∉ [d] := not_mem_of_isDigit hdigit (by simpa using hd)
    have hsds := not_mem_of_isDigit hdigit hds
    rcases hsign with rfl | rfl <;> split <;> simp_all
  have hexponent : Signs.Attached sign (first :: es) := by
    cases es with
    | nil => exact absurd rfl hne
    | cons c es =>
      refine Signs.attached_cons ?_ (Signs.attached_of_not_mem (not_mem_of_isDigit hdigit hes))
      rintro rfl
      cases hes ' ' List.mem_cons_self
  have hsplit : numeral d ds e =
      (d :: ((if ds = [] then [] else '.' :: ds) ++ ['e'])) ++ (first :: es) := by
    simp [numeral, htext]
  rw [hsplit]
  exact Signs.attached_append (Signs.attached_of_not_mem hmantissa) hexponent

theorem unsigned_numeral (hd : d.isDigit = true) (hds : ∀ c ∈ ds, c.isDigit = true) (e : Int) :
    Signs.Unsigned (numeral d ds e) := by
  refine ⟨⟨d, rfl, ?_, ?_⟩, attached_numeral (.inl rfl) hd hds e,
    attached_numeral (.inr rfl) hd hds e⟩
  · rintro rfl
    cases hd
  · rintro rfl
    cases hd

/-- A sign and the token of a number, and what they denote together. -/
structure IsLiteral (t : Bool × List Char) (q : ℚ) : Prop where
  unsigned : Signs.Unsigned t.2
  token : lex t.2 = [.text (String.ofList t.2)]
  decimal : ∃ m, decimal? (String.ofList t.2) = some m ∧ Literal.sign t.1 * m.toRat = q

/-- What is written for a magnitude reads as the decimal that it was rounded to. -/
theorem exists_numeral (places : Nat) {x : Fraction} (hx : 0 < x.den) :
    ∃ d ds, Literal.magnitudeText places x = numeral d ds (Literal.scientific places x).2 ∧
      d.isDigit = true ∧ (∀ c ∈ ds, c.isDigit = true) ∧
      decimal? (String.ofList (Literal.magnitudeText places x)) =
        some (Literal.rounded places x) := by
  obtain ⟨d, ds, -, htext, hd, hds, hlength, hvalue⟩ := exists_digits places hx
  refine ⟨d, ds, htext, hd, hds, ?_⟩
  rw [htext, decimal?_numeral hd hds, hvalue, hlength, Literal.rounded]

/-- The literal of a finite value is one token after its sign. -/
theorem exists_isLiteral {v : Float} (h : (Binary64.ofFloat v).isFinite = true) (places : Nat) :
    ∃ t, Literal.text places v = Signs.signed t ∧ IsLiteral t (Literal.decimal places v) := by
  unfold Binary64.isFinite at h
  split at h
  · rename_i negative significand exponent hv
    obtain ⟨d, ds, htext, hd, hds, hdecimal⟩ :=
      exists_numeral places (Binary64.den_magnitude_pos significand exponent)
    refine ⟨(negative, Literal.magnitudeText places (Binary64.magnitude significand exponent)),
      Literal.text_of_finite hv places, ?_, ?_, _, hdecimal, ?_⟩
    · rw [htext]
      exact unsigned_numeral hd hds _
    · rw [htext]
      exact lex_numeral hd hds _
    · rw [Literal.decimal, hv, Literal.rounded, Decimal.toRat]
  · cases h

end Sqf

end RegressionScript
