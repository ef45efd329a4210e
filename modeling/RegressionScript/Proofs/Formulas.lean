import Mathlib.Algebra.BigOperators.Group.List.Basic
import RegressionScript.Model.Body
import RegressionScript.Proofs.Tokens

/-!
# Expressions read back

The text of every expression in the body of a leaf reads as a formula that has the same value, in
exact arithmetic, as the expression itself with each constant replaced by the decimal written for
it. Signs that were joined change the formula but not its value.
-/

namespace RegressionScript

set_option autoImplicit false

namespace Expr

mutual

/-- The value in exact arithmetic, where `quotient` says what a division gives and `constant` what a
constant stands for. -/
def exact (quotient : ℚ → ℚ → ℚ) (constant : Float → ℚ) (x : Nat → ℚ) : Expr → ℚ
  | .const v => constant v
  | .int v => v.toInt
  | .input i => x i.toNat
  | .pow b e => b.exact quotient constant x ^ e.toNat
  | .product fs => (exactAll quotient constant x fs).prod
  | .sum ts => (exactAll quotient constant x ts).sum
  | .sub l r => l.exact quotient constant x - r.exact quotient constant x
  | .div l r => quotient (l.exact quotient constant x) (r.exact quotient constant x)

def exactAll (quotient : ℚ → ℚ → ℚ) (constant : Float → ℚ) (x : Nat → ℚ) : List Expr → List ℚ
  | [] => []
  | e :: es => e.exact quotient constant x :: exactAll quotient constant x es

end

end Expr

namespace Sqf

/-! ## Factors, terms and sums -/

/-- Tokens that are read as one operand, whatever stands around them. -/
def IsFactor (ts : List Token) (f : Formula) : Prop :=
  ∀ outer p rest, operand outer p (ts ++ rest) = operator outer p f rest

/-- Tokens that are read as one term. Its last factor is not yet combined with those before it. -/
def IsTerm (ts : List Token) (f : Formula) : Prop :=
  ∃ factor last, factor last = f ∧ ∀ outer term rest,
    operand outer ⟨term, id⟩ (ts ++ rest) = operator outer ⟨term, factor⟩ last rest

/-- Tokens that are read as one sum. Its last term is not yet combined with those before it. -/
def IsSum (ts : List Token) (f : Formula) : Prop :=
  ∃ p last, Pending.close p last = f ∧ ∀ outer rest,
    operand outer .start (ts ++ rest) = operator outer p last rest

variable {ts us : List Token} {f g : Formula}

theorem IsFactor.isTerm (h : IsFactor ts f) : IsTerm ts f :=
  ⟨id, f, rfl, fun outer term rest => h outer ⟨term, id⟩ rest⟩

theorem IsTerm.isSum (h : IsTerm ts f) : IsSum ts f := by
  obtain ⟨factor, last, hf, hread⟩ := h
  exact ⟨⟨id, factor⟩, last, hf, fun outer rest => hread outer id rest⟩

theorem IsTerm.times (h : IsTerm ts f) (hg : IsFactor us g) :
    IsTerm (ts ++ .symbol '*' :: us) (.times f g) := by
  obtain ⟨factor, last, rfl, hread⟩ := h
  refine ⟨.times (factor last), g, rfl, fun outer term rest => ?_⟩
  rw [List.append_assoc, hread]
  exact hg outer ⟨term, .times (factor last)⟩ rest

theorem IsTerm.over (h : IsTerm ts f) (hg : IsFactor us g) :
    IsTerm (ts ++ .symbol '/' :: us) (.over f g) := by
  obtain ⟨factor, last, rfl, hread⟩ := h
  refine ⟨.over (factor last), g, rfl, fun outer term rest => ?_⟩
  rw [List.append_assoc, hread]
  exact hg outer ⟨term, .over (factor last)⟩ rest

def operatorSymbol (negative : Bool) : Token :=
  .symbol (if negative then '-' else '+')

def Formula.combine (negative : Bool) (f g : Formula) : Formula :=
  if negative then .minus f g else .plus f g

theorem IsSum.combine (h : IsSum ts f) (negative : Bool) (hg : IsTerm us g) :
    IsSum (ts ++ operatorSymbol negative :: us) (f.combine negative g) := by
  obtain ⟨p, last, rfl, hread⟩ := h
  obtain ⟨factor, next, rfl, hterm⟩ := hg
  refine ⟨⟨(p.close last).combine negative, factor⟩, next, rfl, fun outer rest => ?_⟩
  rw [List.append_assoc, hread, List.cons_append, ← hterm]
  cases negative <;> rfl

/-- A sum in parentheses is an operand, unless it is an input without its own parentheses. -/
theorem IsSum.isFactor {c : Char} (h : IsSum (.symbol c :: ts) f) :
    IsFactor (.symbol '(' :: .symbol c :: (ts ++ [.symbol ')'])) f := by
  obtain ⟨p, last, rfl, hread⟩ := h
  intro outer q rest
  have hinner := hread (q :: outer) (.symbol ')' :: rest)
  simp only [List.cons_append, List.append_assoc] at hinner ⊢
  exact hinner

theorem IsFactor.power (h : IsFactor ts f) (n : Nat) :
    IsFactor (ts ++ [.symbol '^', .text (String.ofList (Digits.ofNat n))]) (.power f n) := by
  intro outer p rest
  rw [List.append_assoc, h]
  change (natural? _ >>= fun n => operator outer p (.power f n) rest) = _
  rw [natural?_ofNat]
  rfl

/-- What can stand after an expression. -/
def Stops (rest : List Token) : Prop :=
  ∀ t ∈ rest.head?, t ∈ [Token.symbol ',', Token.symbol ']', Token.symbol '\x7d']

theorem stops_cons {t : Token} (ht : t ∈ [Token.symbol ',', Token.symbol ']', Token.symbol '\x7d'])
    (rest : List Token) : Stops (t :: rest) := by
  intro u hu
  cases hu
  exact ht

theorem IsSum.formula? (h : IsSum ts f) {rest : List Token} (hrest : Stops rest) :
    Sqf.formula? (ts ++ rest) = some (f, rest) := by
  obtain ⟨p, last, rfl, hread⟩ := h
  rw [Sqf.formula?, hread]
  cases rest with
  | nil => rfl
  | cons t rest =>
    have ht := hrest t rfl
    simp only [List.mem_cons, List.not_mem_nil, or_false] at ht
    rcases ht with rfl | rfl | rfl <;> rfl

/-! ## Operands -/

theorem lex_inputText (i : Nat) :
    lex (Expr.inputText i) = [.symbol '(', .text "_this", .symbol '#',
      .text (String.ofList (Digits.ofNat i)), .symbol ')'] := by
  have hsplit : Expr.inputText i = "(_this".toList ++ '#' :: (Digits.ofNat i ++ ')' :: []) :=
    List.append_assoc "(_this#".toList (Digits.ofNat i) [')']
  have hthis : lex "(_this".toList = [.symbol '(', .text "_this"] := by decide
  rw [hsplit, lex_append_cons (by decide), hthis,
    lex_append_cons (by decide) (Digits.ofNat i) [], lex_ofNat]
  rfl

theorem isFactor_input (i : Nat) : IsFactor (lex (Expr.inputText i)) (.input i) := by
  intro outer p rest
  rw [lex_inputText]
  change (natural? _ >>= fun i => operator outer p (.input i) rest) = _
  rw [natural?_ofNat]
  rfl

theorem isFactor_literal {t : Bool × List Char} {q : ℚ} (h : IsLiteral t q) :
    ∃ m : Decimal, Literal.sign t.1 * m.toRat = q ∧
      ∀ negative, IsFactor (lex (Signs.signed (negative, t.2))) (.number negative m) := by
  obtain ⟨m, hm, hq⟩ := h.decimal
  refine ⟨m, hq, fun negative outer p rest => ?_⟩
  cases negative with
  | true =>
    have hlex : lex (Signs.signed (true, t.2)) = .symbol '-' :: lex t.2 := rfl
    rw [hlex, h.token]
    change (decimal? _ >>= fun m => operator outer p (.number true m) rest) = _
    rw [hm]
    rfl
  | false =>
    have hlex : lex (Signs.signed (false, t.2)) = lex t.2 := rfl
    rw [hlex, h.token]
    change (decimal? _ >>= fun m => operator outer p (.number false m) rest) = _
    rw [hm]
    rfl

end Sqf

namespace Expr

open Sqf

variable {places : Nat} {e : Expr} {es : List Expr}

/-! ## Products -/

/-- The text of an expression has no signs and is read as one operand of the same value. -/
def ReadsAsFactor (places : Nat) (e : Expr) : Prop :=
  '+' ∉ e.text places ∧ '-' ∉ e.text places ∧ ∃ f, IsFactor (lex (e.text places)) f ∧
    ∀ quotient x, f.value quotient x = e.exact quotient (Literal.decimal places) x

theorem not_mem_inputText {c : Char} (hc : c.isDigit = false) (hmem : c ∉ "(_this#)".toList)
    (i : Nat) : c ∉ inputText i := by
  have hdigits : c ∉ Digits.ofNat i := not_mem_of_isDigit hc Digits.isDigit_of_mem_padded
  have hends : c ∉ "(_this#".toList ∧ c ∉ [')'] := by
    rw [← not_or, ← List.mem_append]
    exact hmem
  intro h
  rcases List.mem_append.mp h with h | h
  · rcases List.mem_append.mp h with h | h
    · exact hends.1 h
    · exact hdigits h
  · exact hends.2 h

theorem not_mem_cons_inputText {c d : Char} (hc : c.isDigit = false)
    (hmem : c ∉ "(_this#)".toList) (hne : c ≠ d) (i : Nat) : c ∉ d :: inputText i := by
  rw [List.mem_cons]
  exact not_or.mpr ⟨hne, not_mem_inputText hc hmem i⟩

theorem readsAsFactor_input (places : Nat) (i : UInt32) : (input i).ReadsAsFactor places :=
  ⟨not_mem_inputText rfl (by decide) i.toNat, not_mem_inputText rfl (by decide) i.toNat,
    .input i.toNat, isFactor_input i.toNat, fun _ _ => rfl⟩

theorem ReadsAsFactor.pow (h : e.ReadsAsFactor places) (n : UInt32) :
    (pow e n).ReadsAsFactor places := by
  obtain ⟨hplus, hminus, f, hf, hvalue⟩ := h
  have hdigits {c : Char} (hc : c.isDigit = false) (hne : c ≠ '^') (he : c ∉ e.text places) :
      c ∉ (Expr.pow e n).text places := by
    have hn : c ∉ Digits.ofNat n.toNat := not_mem_of_isDigit hc Digits.isDigit_of_mem_padded
    rw [text, List.mem_append, List.mem_cons]
    exact not_or.mpr ⟨he, not_or.mpr ⟨hne, hn⟩⟩
  refine ⟨hdigits rfl (by decide) hplus, hdigits rfl (by decide) hminus, .power f n.toNat, ?_, ?_⟩
  · rw [text, lex_append_cons (by decide), lex_ofNat]
    exact hf.power n.toNat
  · intro quotient x
    rw [Formula.value, exact, hvalue]

theorem textAll_eq_map (places : Nat) (es : List Expr) :
    textAll places es = es.map (text places) := by
  induction es with
  | nil => rfl
  | cons e es ih => rw [textAll, ih, List.map_cons]

/-- The factors of a product after the first one. -/
def laterFactors (places : Nat) (es : List Expr) : List Char :=
  es.flatMap fun e => '*' :: e.text places

theorem laterFactors_cons (places : Nat) (e : Expr) (es : List Expr) :
    laterFactors places (e :: es) = '*' :: (e.text places ++ laterFactors places es) := by
  rw [laterFactors, List.flatMap_cons, List.cons_append]
  rfl

theorem separates_laterFactors : ∀ c ∈ (laterFactors places es).head?, separates c = true := by
  cases es with
  | nil =>
    intro c hc
    cases hc
  | cons e es =>
    intro c hc
    cases hc
    decide

theorem text_product (places : Nat) (e : Expr) (es : List Expr) :
    (product (e :: es)).text places = e.text places ++ laterFactors places es := by
  rw [text, textAll_eq_map, List.map_cons, Signs.intercalate_cons_eq_flatMap, List.flatMap_map]
  rfl

/-- Factors that follow a term become part of it. -/
theorem exists_isTerm_product {ts : List Token} {f : Formula} (hts : IsTerm ts f)
    (h : ∀ e ∈ es, e.ReadsAsFactor places) :
    ∃ g, IsTerm (ts ++ lex (laterFactors places es)) g ∧
      ∀ quotient x, g.value quotient x =
        f.value quotient x * (exactAll quotient (Literal.decimal places) x es).prod := by
  induction es generalizing ts f with
  | nil =>
    refine ⟨f, ?_, fun quotient x => ?_⟩
    · rw [show lex (laterFactors places []) = [] from rfl, List.append_nil]
      exact hts
    · rw [exactAll, List.prod_nil, mul_one]
  | cons e es ih =>
    rw [List.forall_mem_cons] at h
    obtain ⟨-, -, g, hg, hvalue⟩ := h.1
    obtain ⟨k, hk, hkvalue⟩ := ih (hts.times hg) h.2
    have hlex : lex (laterFactors places (e :: es)) =
        .symbol '*' :: lex (e.text places) ++ lex (laterFactors places es) := by
      rw [laterFactors_cons, lex_cons (by decide), lex_append separates_laterFactors]
      rfl
    refine ⟨k, ?_, fun quotient x => ?_⟩
    · rw [hlex, ← List.append_assoc]
      exact hk
    · rw [hkvalue, Formula.value, hvalue, exactAll, List.prod_cons, mul_assoc]

/-- An expression whose text, with its signs joined, is read as a sum of the same value. -/
def ReadsBack (places : Nat) (e : Expr) : Prop :=
  ∃ f, IsSum (lex (Function.exprText places e)) f ∧
    ∀ quotient x, f.value quotient x = e.exact quotient (Literal.decimal places) x

theorem joined_eq_self {cs : List Char} (hplus : '+' ∉ cs) (hminus : '-' ∉ cs) :
    Signs.joined cs = cs := by
  rw [Signs.joined, Signs.joinPlus_eq_self (Signs.attached_of_not_mem hplus),
    Signs.joinMinus_eq_self (Signs.attached_of_not_mem hminus)]

theorem not_mem_text_product {c : Char} (hc : c ≠ '*') (h : ∀ e ∈ es, c ∉ e.text places) :
    c ∉ (product es).text places := by
  cases es with
  | nil =>
    rw [text, textAll]
    exact List.not_mem_nil
  | cons e es =>
    rw [List.forall_mem_cons] at h
    rw [text_product, List.mem_append, not_or]
    refine ⟨h.1, fun hmem => ?_⟩
    obtain ⟨e', he', hmem⟩ := List.mem_flatMap.mp hmem
    rcases List.mem_cons.mp hmem with rfl | hmem
    · exact hc rfl
    · exact h.2 e' he' hmem

theorem readsBack_product (hne : es ≠ []) (h : ∀ e ∈ es, e.ReadsAsFactor places) :
    (product es).ReadsBack places := by
  have hplus : '+' ∉ (product es).text places :=
    not_mem_text_product (by decide) fun e he => (h e he).1
  have hminus : '-' ∉ (product es).text places :=
    not_mem_text_product (by decide) fun e he => (h e he).2.1
  cases es with
  | nil => exact absurd rfl hne
  | cons e es =>
    rw [List.forall_mem_cons] at h
    obtain ⟨-, -, f, hf, hvalue⟩ := h.1
    obtain ⟨g, hg, hgvalue⟩ := exists_isTerm_product hf.isTerm h.2
    refine ⟨g, ?_, fun quotient x => ?_⟩
    · rw [Function.exprText, joined_eq_self hplus hminus, text_product,
        lex_append separates_laterFactors]
      exact hg.isSum
    · rw [hgvalue, hvalue, exact, exactAll, List.prod_cons]

/-! ## Sums -/

/-- A text after a sign. It is read as a term whose value has the sign as a factor, so that the sign
may also become an operator. -/
structure ReadsAsTerm (places : Nat) (e : Expr) (t : Bool × List Char) : Prop where
  text_eq : e.text places = Signs.signed t
  unsigned : Signs.Unsigned t.2
  read : ∃ magnitude : (Nat → ℚ) → ℚ,
    (∀ quotient x, e.exact quotient (Literal.decimal places) x = Literal.sign t.1 * magnitude x) ∧
      ∀ negative, ∃ f, IsTerm (lex (Signs.signed (negative, t.2))) f ∧
        ∀ quotient x, f.value quotient x = Literal.sign negative * magnitude x

theorem exists_readsAsTerm_const {v : Float} (hv : (Binary64.ofFloat v).isFinite = true)
    (places : Nat) : ∃ t, (const v).ReadsAsTerm places t := by
  obtain ⟨t, htext, ht⟩ := exists_isLiteral hv places
  obtain ⟨m, hm, hread⟩ := isFactor_literal ht
  refine ⟨t, htext, ht.unsigned, fun _ => m.toRat, fun quotient x => ?_, fun negative => ?_⟩
  · rw [exact, hm]
  · exact ⟨_, (hread negative).isTerm, fun _ _ => rfl⟩

/-- A literal on its own is read as the decimal of its value. -/
theorem exists_formula?_literal {v : Float} (hv : (Binary64.ofFloat v).isFinite = true)
    (places : Nat) : ∃ f, formula? (lex (Literal.text places v)) = some (f, []) ∧
      ∀ quotient x, f.value quotient x = Literal.decimal places v := by
  obtain ⟨t, ht⟩ := exists_readsAsTerm_const hv places
  obtain ⟨magnitude, hexact, hread⟩ := ht.read
  obtain ⟨f, hf, hvalue⟩ := hread t.1
  have hstops : Stops [] := by
    intro t ht
    cases ht
  have hformula := hf.isSum.formula? hstops
  have htext : Literal.text places v = Signs.signed (t.1, t.2) := ht.text_eq
  rw [List.append_nil, ← htext] at hformula
  refine ⟨f, hformula, fun quotient x => ?_⟩
  rw [hvalue, ← hexact quotient, exact]

theorem exists_readsAsTerm_weighted {v : Float} (hv : (Binary64.ofFloat v).isFinite = true)
    (i : UInt32) (places : Nat) : ∃ t, (product [const v, input i]).ReadsAsTerm places t := by
  obtain ⟨t, htext, ht⟩ := exists_isLiteral hv places
  obtain ⟨m, hm, hread⟩ := isFactor_literal ht
  have hsigned (negative : Bool) : Signs.signed (negative, t.2 ++ '*' :: inputText i.toNat) =
      Signs.signed (negative, t.2) ++ '*' :: inputText i.toNat :=
    (List.append_assoc _ _ _).symm
  refine ⟨(t.1, t.2 ++ '*' :: inputText i.toNat), ?_, ?_, fun x => m.toRat * x i.toNat,
    fun quotient x => ?_, fun negative => ?_⟩
  · rw [hsigned, text_product, text, htext]
    simp [laterFactors, text]
  · exact ht.unsigned.append (not_mem_cons_inputText rfl (by decide) (by decide) i.toNat)
      (not_mem_cons_inputText rfl (by decide) (by decide) i.toNat)
  · simp [exact, exactAll, ← hm, mul_assoc]
  · refine ⟨.times (.number negative m) (.input i.toNat), ?_, fun quotient x => ?_⟩
    · rw [hsigned, lex_append_cons (by decide)]
      exact (hread negative).isTerm.times (isFactor_input i.toNat)
    · simp [Formula.value, mul_assoc]

theorem exists_readsAsTerm (h : ∀ e ∈ es, ∃ t, e.ReadsAsTerm places t) :
    ∃ ts, List.Forall₂ (ReadsAsTerm places) es ts := by
  induction es with
  | nil => exact ⟨[], .nil⟩
  | cons e es ih =>
    rw [List.forall_mem_cons] at h
    obtain ⟨t, ht⟩ := h.1
    obtain ⟨ts, hts⟩ := ih h.2
    exact ⟨t :: ts, .cons ht hts⟩

theorem lex_operatorText (negative : Bool) (cs : List Char) :
    lex (Signs.operatorText negative ++ cs) = operatorSymbol negative :: lex cs := by
  cases negative <;> rfl

theorem separates_operatorText (negative : Bool) (cs : List Char) :
    ∀ c ∈ (Signs.operatorText negative ++ cs).head?, separates c = true := by
  intro c hc
  cases negative <;> (cases hc; decide)

theorem separates_laterTerms {ts : List (Bool × List Char)} :
    ∀ c ∈ (Signs.laterTerms ts).head?, separates c = true := by
  cases ts with
  | nil =>
    intro c hc
    cases hc
  | cons t ts =>
    rw [Signs.laterTerms_cons]
    exact separates_operatorText t.1 _

/-- Terms that follow a sum become part of it, those with a minus sign by subtraction. -/
theorem exists_isSum_sum {ts : List Token} {f : Formula} {terms : List (Bool × List Char)}
    (hts : IsSum ts f) (h : List.Forall₂ (ReadsAsTerm places) es terms) :
    ∃ g, IsSum (ts ++ lex (Signs.laterTerms terms)) g ∧
      ∀ quotient x, g.value quotient x =
        f.value quotient x + (exactAll quotient (Literal.decimal places) x es).sum := by
  induction h generalizing ts f with
  | nil =>
    refine ⟨f, ?_, fun quotient x => ?_⟩
    · rw [show lex (Signs.laterTerms []) = [] from rfl, List.append_nil]
      exact hts
    · rw [exactAll, List.sum_nil, add_zero]
  | @cons e t es terms ht _ ih =>
    obtain ⟨magnitude, hexact, hread⟩ := ht.read
    obtain ⟨g, hg, hvalue⟩ := hread false
    obtain ⟨k, hk, hkvalue⟩ := ih (hts.combine t.1 hg)
    have hlex : lex (Signs.laterTerms (t :: terms)) =
        operatorSymbol t.1 :: lex t.2 ++ lex (Signs.laterTerms terms) := by
      rw [Signs.laterTerms_cons, lex_operatorText, lex_append separates_laterTerms]
      rfl
    refine ⟨k, ?_, fun quotient x => ?_⟩
    · rw [hlex, ← List.append_assoc]
      exact hk
    · have hcombine : (f.combine t.1 g).value quotient x =
          f.value quotient x + e.exact quotient (Literal.decimal places) x := by
        rw [hexact]
        cases t.1 <;> simp [Formula.combine, Formula.value, hvalue, Literal.sign, sub_eq_add_neg]
      rw [hkvalue, hcombine, exactAll, List.sum_cons, add_assoc]

theorem textAll_eq_map_signed {terms : List (Bool × List Char)}
    (h : List.Forall₂ (ReadsAsTerm places) es terms) :
    textAll places es = terms.map Signs.signed := by
  induction h with
  | nil => rfl
  | cons ht _ ih => rw [textAll, ht.text_eq, ih, List.map_cons]

theorem unsigned_of_readsAsTerm {terms : List (Bool × List Char)}
    (h : List.Forall₂ (ReadsAsTerm places) es terms) : ∀ t ∈ terms, Signs.Unsigned t.2 := by
  induction h with
  | nil =>
    intro t ht
    cases ht
  | cons ht _ ih =>
    rw [List.forall_mem_cons]
    exact ⟨ht.unsigned, ih⟩

theorem readsBack_sum (hne : es ≠ []) (h : ∀ e ∈ es, ∃ t, e.ReadsAsTerm places t) :
    (sum es).ReadsBack places := by
  obtain ⟨terms, hterms⟩ := exists_readsAsTerm h
  have hunsigned := unsigned_of_readsAsTerm hterms
  have htext := textAll_eq_map_signed hterms
  cases hterms with
  | nil => exact absurd rfl hne
  | @cons e t es terms ht hterms =>
    obtain ⟨magnitude, hexact, hread⟩ := ht.read
    obtain ⟨f, hf, hvalue⟩ := hread t.1
    obtain ⟨g, hg, hgvalue⟩ := exists_isSum_sum hf.isSum hterms
    refine ⟨g, ?_, fun quotient x => ?_⟩
    · rw [Function.exprText, text, htext, Signs.joined_sum hunsigned,
        lex_append separates_laterTerms]
      exact hg
    · rw [hgvalue, hvalue, ← hexact, exact, exactAll, List.sum_cons]

/-! ## Quotients -/

section Scaled

variable {mean scale : Float} {t u : Bool × List Char}

theorem exprText_scaled (htext : Literal.text places mean = Signs.signed t)
    (hutext : Literal.text places scale = Signs.signed u) (ht : Signs.Unsigned t.2)
    (hu : Signs.Unsigned u.2) (i : UInt32) :
    Function.exprText places (div (sub (input i) (const mean)) (const scale)) =
      ('(' :: inputText i.toNat) ++
        (Signs.operatorText (!t.1) ++ (t.2 ++ (") / ".toList ++ Signs.signed u))) := by
  have hsplit : (div (sub (input i) (const mean)) (const scale)).text places =
      ('(' :: inputText i.toNat) ++
        (" - ".toList ++ (Signs.signed t ++ (") / ".toList ++ Signs.signed u))) := by
    simp only [text, htext, hutext, List.append_assoc, List.cons_append]
    rfl
  have hafter {c : Char} (hc : c ∉ ") / ".toList) (hattached : Signs.Attached c u.2) :
      Signs.Attached c (") / ".toList ++ Signs.signed u) :=
    Signs.attached_append (Signs.attached_of_not_mem hc) (Signs.attached_signed hu hattached)
  rw [Function.exprText, hsplit]
  exact Signs.joined_difference (not_mem_cons_inputText rfl (by decide) (by decide) i.toNat)
    (not_mem_cons_inputText rfl (by decide) (by decide) i.toNat) ht
    (hafter (by decide) hu.plus) (hafter (by decide) hu.minus)

theorem isSum_scaled {f g : Formula} (hf : IsFactor (lex t.2) f)
    (hg : IsFactor (lex (Signs.signed u)) g) (i : Nat) (negative : Bool) :
    IsSum (lex (('(' :: inputText i) ++
        (Signs.operatorText negative ++ (t.2 ++ (") / ".toList ++ Signs.signed u)))))
      (.over ((Formula.input i).combine negative f) g) := by
  obtain ⟨inner, hinner⟩ : ∃ inner, lex (inputText i) = .symbol '(' :: inner :=
    ⟨_, lex_inputText i⟩
  have hsum : IsSum (.symbol '(' :: (inner ++ operatorSymbol negative :: lex t.2))
      ((Formula.input i).combine negative f) := by
    rw [← List.cons_append, ← hinner]
    exact (isFactor_input i).isTerm.isSum.combine negative hf.isTerm
  have hover : lex (t.2 ++ (") / ".toList ++ Signs.signed u)) =
      lex t.2 ++ .symbol ')' :: .symbol '/' :: lex (Signs.signed u) :=
    lex_append_cons (by decide) t.2 (" / ".toList ++ Signs.signed u)
  have hlex : lex (('(' :: inputText i) ++
      (Signs.operatorText negative ++ (t.2 ++ (") / ".toList ++ Signs.signed u)))) =
      .symbol '(' :: .symbol '(' ::
        (inner ++ operatorSymbol negative :: lex t.2 ++ [.symbol ')']) ++
          .symbol '/' :: lex (Signs.signed u) := by
    rw [List.cons_append, lex_cons (by decide), lex_append (separates_operatorText _ _), hinner,
      lex_operatorText, hover]
    simp [separator, Words.isBlank]
  rw [hlex]
  exact (hsum.isFactor.isTerm.over hg).isSum

/-- A mean with a minus sign is added, and the scale keeps its own sign. -/
theorem readsBack_scaled (hmean : (Binary64.ofFloat mean).isFinite = true)
    (hscale : (Binary64.ofFloat scale).isFinite = true) (i : UInt32) (places : Nat) :
    (div (sub (input i) (const mean)) (const scale)).ReadsBack places := by
  obtain ⟨t, htext, ht⟩ := exists_isLiteral hmean places
  obtain ⟨u, hutext, hu⟩ := exists_isLiteral hscale places
  obtain ⟨m, hm, hread⟩ := isFactor_literal ht
  obtain ⟨n, hn, huread⟩ := isFactor_literal hu
  refine ⟨.over ((Formula.input i.toNat).combine (!t.1) (.number false m)) (.number u.1 n), ?_, ?_⟩
  · rw [exprText_scaled htext hutext ht.unsigned hu.unsigned]
    exact isSum_scaled (hread false) (huread u.1) i.toNat (!t.1)
  · intro quotient x
    simp only [Formula.value, exact, ← hm, ← hn]
    cases t.1 <;> simp [Formula.combine, Formula.value, Literal.sign]

end Scaled

end Expr

end RegressionScript
