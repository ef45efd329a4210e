import Mathlib
import RegressionScript.Proofs.Joining
import RegressionScript.Proofs.Tokens

/-!
# Texts of expressions

The text of an expression is put together from numbers and a few symbols, so that it has every
property that these have and that is kept when texts follow each other. One such property is that
signs stand apart, which leaves no sign before another after signs have been joined.
-/

namespace RegressionScript

set_option autoImplicit false

namespace Expr

/-- What stands in an expression besides numbers and operators. The empty text is that of an empty
product or sum. -/
def symbols : List (List Char) :=
  [[], ['('], ['(', '_', 't', 'h', 'i', 's', '#'], [')'], ['^'], ['*']]

/-- A property that numbers, symbols and operators have and that texts keep when they follow each
other. -/
structure Composed (P : List Char → Prop) : Prop where
  nan : P "NaN".toList
  infinity : ∀ negative, P (Literal.signText negative ++ "inf".toList)
  numeral : ∀ negative {d : Char} {ds : List Char}, d.isDigit = true →
    (∀ c ∈ ds, c.isDigit = true) → ∀ e, P (Literal.signText negative ++ Sqf.numeral d ds e)
  integer : ∀ negative n, P (Literal.signText negative ++ Digits.ofNat n)
  symbol : ∀ s ∈ symbols, P s
  operator : ∀ c ∈ ['+', '-', '/'], P [' ', c, ' ']
  append : ∀ {a b : List Char}, P a → P b → P (a ++ b)

namespace Composed

variable {P : List Char → Prop}

theorem literal (h : Composed P) (places : Nat) (v : Float) : P (Literal.text places v) := by
  cases hv : Binary64.ofFloat v with
  | nan =>
    rw [Literal.text_of_nan hv]
    exact h.nan
  | infinite negative =>
    rw [Literal.text_of_infinite hv]
    exact h.infinity negative
  | finite negative significand exponent =>
    obtain ⟨d, ds, htext, hd, hds, -⟩ :=
      Sqf.exists_numeral places (Binary64.den_magnitude_pos significand exponent)
    rw [Literal.text_of_finite hv, htext]
    exact h.numeral negative hd hds _

theorem natural (h : Composed P) (n : Nat) : P (Digits.ofNat n) :=
  h.integer false n

theorem ofInt (h : Composed P) (i : Int) : P (Digits.ofInt i) := by
  rw [Digits.ofInt]
  split
  · exact h.integer true i.natAbs
  · exact h.natural i.natAbs

theorem intercalate (h : Composed P) {sep : List Char} (hsep : P sep)
    {ts : List (List Char)} (hts : ∀ t ∈ ts, P t) : P (List.intercalate sep ts) := by
  induction ts with
  | nil => exact h.symbol [] (by decide)
  | cons t ts ih =>
    rw [List.forall_mem_cons] at hts
    cases ts with
    | nil => simpa using hts.1
    | cons u us =>
      rw [List.intercalate_cons_cons]
      exact h.append (h.append hts.1 hsep) (ih hts.2)

theorem inputText (h : Composed P) (n : Nat) : P (Expr.inputText n) := by
  -- rewriting with the equation of `inputText` would evaluate its text
  unfold Expr.inputText
  refine h.append (h.append ?_ (h.natural n)) (h.symbol [')'] (by decide))
  exact h.symbol ['(', '_', 't', 'h', 'i', 's', '#'] (by decide)

mutual

theorem text (h : Composed P) (places : Nat) : ∀ e : Expr, P (e.text places)
  | .const v => by
    rw [Expr.text]
    exact h.literal places v
  | .int v => by
    rw [Expr.text]
    exact h.ofInt v.toInt
  | .input i => by
    rw [Expr.text]
    exact h.inputText i.toNat
  | .pow b n => by
    rw [Expr.text, ← List.singleton_append]
    exact h.append (text h places b) (h.append (h.symbol ['^'] (by decide)) (h.natural n.toNat))
  | .product fs => by
    rw [Expr.text]
    exact h.intercalate (h.symbol ['*'] (by decide)) (textAll h places fs)
  | .sum ts => by
    rw [Expr.text]
    exact h.intercalate (h.operator '+' (by decide)) (textAll h places ts)
  | .sub l r => by
    rw [Expr.text, ← List.singleton_append]
    have hdifference :=
      h.append (h.append (text h places l) (h.operator '-' (by decide))) (text h places r)
    exact h.append (h.symbol ['('] (by decide)) (h.append hdifference (h.symbol [')'] (by decide)))
  | .div l r => by
    rw [Expr.text]
    exact h.append (h.append (text h places l) (h.operator '/' (by decide))) (text h places r)

theorem textAll (h : Composed P) (places : Nat) :
    ∀ es : List Expr, ∀ t ∈ Expr.textAll places es, P t
  | [] => by
    intro t ht
    rw [Expr.textAll] at ht
    cases ht
  | e :: es => by
    rw [Expr.textAll, List.forall_mem_cons]
    exact ⟨text h places e, textAll h places es⟩

end

end Composed

end Expr

namespace Signs

/-! ## Signs that stand apart -/

def isSign (c : Char) : Bool :=
  c == '+' || c == '-'

/-- Signs that are too close to each other. -/
def close : List (List Char) := [['-', '-'], ['-', '+'], ['+', ' ', '+']]

/-- Where such signs are cut in two, the first part ends in a sign or the second is a plus, and a
minus sign is cut off only from another sign. -/
theorem isChain_of_mem_close : ∀ p ∈ close,
    p.IsChain fun c d => (isSign c = true ∨ d = '+') ∧ (c = '-' → isSign d = true) := by
  decide

theorem countP_of_mem_close : ∀ p ∈ close, p.countP isSign = 2 := by
  decide

/-- No signs are too close, also where such texts follow each other. -/
structure Apart (t : List Char) : Prop where
  none : ∀ p ∈ close, ¬ p <:+: t
  head : t.head? ≠ some '+'
  last : ∀ c ∈ t.getLast?, isSign c = false

/-- What is found in two texts together lies in one of them or reaches over their boundary. -/
theorem infix_append_cases {p a b : List Char} (h : p <:+: a ++ b) :
    p <:+: a ∨ p <:+: b ∨
      ∃ p₁ c d p₂, p = p₁ ++ c :: d :: p₂ ∧ c ∈ a.getLast? ∧ d ∈ b.head? := by
  rcases List.infix_append_iff_ne_nil.mp h with
    h | h | ⟨q₁, q₂, hq₁, hq₂, rfl, ⟨r₁, rfl⟩, ⟨r₂, rfl⟩⟩
  · exact Or.inl h
  · exact Or.inr (Or.inl h)
  · obtain ⟨d, p₂, rfl⟩ := List.exists_cons_of_ne_nil hq₂
    obtain ⟨p₁, c, rfl⟩ := (List.eq_nil_or_concat' q₁).resolve_left hq₁
    exact Or.inr (Or.inr ⟨p₁, c, d, p₂, by simp, by simp, by simp⟩)

namespace Apart

variable {t a b cs : List Char}

theorem append (ha : Apart a) (hb : Apart b) : Apart (a ++ b) where
  none := by
    intro p hp h
    rcases infix_append_cases h with h | h | ⟨p₁, c, d, p₂, heq, hc, hd⟩
    · exact ha.none p hp h
    · exact hb.none p hp h
    · have hchain := isChain_of_mem_close p hp
      rw [heq, List.isChain_append_cons_cons] at hchain
      rcases hchain.2.1.1 with hsign | hsign
      · rw [ha.last c hc] at hsign
        cases hsign
      · exact hb.head (hsign ▸ hd)
  head := by
    rw [List.head?_append]
    cases hhead : a.head? with
    | none => exact hb.head
    | some c =>
      rw [Option.some_or, ← hhead]
      exact ha.head
  last := by
    rw [List.getLast?_append]
    cases hlast : b.getLast? with
    | none => exact ha.last
    | some c =>
      rw [Option.some_or, ← hlast]
      exact hb.last

theorem of_countP_le (hcount : t.countP isSign ≤ 1) (hhead : t.head? ≠ some '+')
    (hlast : ∀ c ∈ t.getLast?, isSign c = false) : Apart t := by
  refine ⟨fun p hp h => ?_, hhead, hlast⟩
  have hle := h.sublist.countP_le (p := isSign)
  rw [countP_of_mem_close p hp] at hle
  omega

/-- A minus sign before what does not begin with a sign. -/
theorem signed {c : Char} (h : Apart (c :: cs)) (hc : isSign c = false) (negative : Bool) :
    Apart (Literal.signText negative ++ c :: cs) := by
  cases negative with
  | false => exact h
  | true =>
    refine ⟨fun p hp hin => ?_, by simp [Literal.signText], h.last⟩
    rcases infix_append_cases hin with hin | hin | ⟨p₁, c', d, p₂, heq, hc', hd⟩
    · have hle := hin.sublist.countP_le (p := isSign)
      rw [countP_of_mem_close p hp] at hle
      exact absurd hle (by decide)
    · exact h.none p hp hin
    · have hchain := isChain_of_mem_close p hp
      rw [heq, List.isChain_append_cons_cons] at hchain
      cases hc'
      cases hd
      rw [hchain.2.1.2 rfl] at hc
      cases hc

theorem not_plus_infix_joined {t : List Char} (h : Apart t) :
    ¬ ['+', ' ', '-'] <:+: joined t := by
  apply Signs.not_plus_infix_joined
  · exact h.none _ (by decide)
  · intro hin
    exact h.none ['-', '+'] (by decide) (List.IsInfix.trans ⟨[], [' ', '-'], rfl⟩ hin)
  · intro hin
    exact h.none ['+', ' ', '+'] (by decide) (List.IsInfix.trans ⟨[], [' ', '-'], rfl⟩ hin)

end Apart

/-! ## Numbers and symbols -/

variable {c d : Char} {a b cs ds : List Char}

theorem isSign_of_isDigit (h : c.isDigit = true) : isSign c = false := by
  rw [isSign, Bool.or_eq_false_iff, beq_eq_false_iff_ne, beq_eq_false_iff_ne]
  constructor <;>
  · rintro rfl
    cases h

theorem isSign_of_mem (h : cs.countP isSign = 0) (hc : c ∈ cs) : isSign c = false :=
  Bool.eq_false_of_not_eq_true (List.countP_eq_zero.mp h c hc)

theorem countP_of_isDigit (h : ∀ c ∈ cs, c.isDigit = true) : cs.countP isSign = 0 := by
  rw [List.countP_eq_zero]
  intro c hc
  rw [isSign_of_isDigit (h c hc)]
  exact Bool.false_ne_true

theorem apart_of_signless (h : cs.countP isSign = 0) : Apart cs := by
  refine Apart.of_countP_le (by omega) ?_ fun c hc => isSign_of_mem h (List.mem_of_mem_getLast? hc)
  intro hhead
  cases isSign_of_mem h (List.mem_of_mem_head? hhead)

/-- At most one sign, with something on both sides of it. -/
theorem apart_between (ha : a.countP isSign = 0) (hane : a ≠ []) (c : Char)
    (hb : b.countP isSign = 0) (hbne : b ≠ []) : Apart (a ++ c :: b) := by
  apply Apart.of_countP_le
  · rw [List.countP_append, List.countP_cons, ha, hb]
    split <;> decide
  · rw [List.head?_append_of_ne_nil _ hane]
    exact (apart_of_signless ha).head
  · obtain ⟨x, b, rfl⟩ := List.exists_cons_of_ne_nil hbne
    rw [List.getLast?_append_of_ne_nil _ (List.cons_ne_nil _ _), List.getLast?_cons_cons]
    exact (apart_of_signless hb).last

theorem apart_numeral (hd : d.isDigit = true) (hds : ∀ c ∈ ds, c.isDigit = true) (e : Int) :
    Apart (Sqf.numeral d ds e) := by
  obtain ⟨sign, es, -, hne, hes, htext⟩ := Sqf.exists_exponentText e
  have hsplit : Sqf.numeral d ds e =
      (d :: ((if ds = [] then [] else '.' :: ds) ++ ['e'])) ++ sign :: es := by
    simp [Sqf.numeral, htext]
  have hmantissa : (d :: ((if ds = [] then [] else '.' :: ds) ++ ['e'])).countP isSign = 0 := by
    have hpoint : isSign '.' = false := rfl
    have he : isSign 'e' = false := rfl
    split <;> simp [isSign_of_isDigit hd, countP_of_isDigit hds, hpoint, he]
  rw [hsplit]
  exact apart_between hmantissa (List.cons_ne_nil _ _) sign (countP_of_isDigit hes) hne

theorem apart_integer (negative : Bool) (n : Nat) :
    Apart (Literal.signText negative ++ Digits.ofNat n) := by
  have hdigits : ∀ c ∈ Digits.ofNat n, c.isDigit = true := Digits.isDigit_of_mem_padded
  obtain ⟨c, cs, hcons⟩ := List.exists_cons_of_ne_nil (Digits.ofNat_ne_nil n)
  rw [hcons] at hdigits ⊢
  have hc : isSign c = false := isSign_of_isDigit (hdigits c List.mem_cons_self)
  exact (apart_of_signless (countP_of_isDigit hdigits)).signed hc negative

end Signs

namespace Expr

theorem composed_apart : Composed Signs.Apart where
  nan := Signs.apart_of_signless rfl
  infinity := Signs.Apart.signed (c := 'i') (Signs.apart_of_signless rfl) rfl
  numeral negative _ _ hd hds e :=
    (Signs.apart_numeral hd hds e).signed (Signs.isSign_of_isDigit hd) negative
  integer := Signs.apart_integer
  symbol s hs := by
    have hsignless : ∀ s ∈ symbols, s.countP Signs.isSign = 0 := by decide
    exact Signs.apart_of_signless (hsignless s hs)
  operator c _ := Signs.apart_between (a := [' ']) rfl (by decide) c rfl (by decide)
  append := Signs.Apart.append

/-- After signs have been joined, none is left before another, also next to what has no text. -/
theorem no_doubled_sign (e : Expr) {places : Nat} (hp : places ≤ Literal.maxPlaces) :
    ∃ text, e.format? places = some text ∧
      ¬ "+ -".toList <:+: (Signs.normalize text).toList ∧
      ¬ "- -".toList <:+: (Signs.normalize text).toList := by
  have htext : (Signs.normalize (String.ofList (e.text places))).toList =
      Signs.joined (e.text places) := by
    rw [Signs.toList_normalize, String.toList_ofList]
  refine ⟨String.ofList (e.text places), by rw [format?, if_pos hp], ?_⟩
  rw [htext]
  exact ⟨(composed_apart.text places e).not_plus_infix_joined,
    Signs.not_minus_infix_joinMinus _⟩

/-- A difference of a sum that ends in nothing and a negative number. -/
def minusNegative : Expr := .sub (.sum [.int (-1), .sum []]) (.const (-0.5))

theorem no_doubled_sign_minusNegative :
    2 ≤ Literal.maxPlaces ∧
      minusNegative.format? 2 = some "(-1 +  - -5.00e-01)" ∧
      Signs.normalize "(-1 +  - -5.00e-01)" = "(-1 +  + 5.00e-01)" ∧
      ¬ "+ -".toList <:+: (Signs.normalize "(-1 +  - -5.00e-01)").toList ∧
      ¬ "- -".toList <:+: (Signs.normalize "(-1 +  - -5.00e-01)").toList := by
  have htext : minusNegative.format? 2 = some "(-1 +  - -5.00e-01)" := by decide +kernel
  have hplaces : 2 ≤ Literal.maxPlaces := by decide
  obtain ⟨text, hformat, hsigns⟩ := no_doubled_sign minusNegative hplaces
  rw [htext] at hformat
  cases hformat
  exact ⟨hplaces, htext, by decide +kernel, hsigns⟩

end Expr

end RegressionScript
