import Mathlib
import RegressionScript.Proofs.Layout

/-!
# Signs that are left

Joining signs reads the text twice from left to right and does not go back to what it has written.
A minus before a minus sign never stays. A plus before a minus sign can come about anew, from two
operators in a row or from minus signs without a space between them, and then a second run would
change the text again. The text of an expression has neither.
-/

namespace RegressionScript

set_option autoImplicit false

namespace Signs

/-! ## One run -/

/-- What a run does at each place: it turns `sign` before a minus sign into `operator`, and keeps
every other character. -/
structure Joins (sign operator : Char) (join : List Char → List Char) : Prop where
  nil : join [] = []
  joined : ∀ cs, join (sign :: ' ' :: '-' :: cs) = operator :: ' ' :: join cs
  kept : ∀ {c : Char} {cs : List Char}, (c = sign → ∀ d, ' ' :: '-' :: d ≠ cs) →
    join (c :: cs) = c :: join cs

theorem joins_joinPlus : Joins '+' '-' joinPlus :=
  ⟨rfl, fun _ => rfl, joinPlus_cons⟩

theorem joins_joinMinus : Joins '-' '+' joinMinus :=
  ⟨rfl, fun _ => rfl, joinMinus_cons⟩

/-- The places at which a run stands, from the end of the text to its beginning. -/
theorem run_induction (sign : Char) {motive : List Char → Prop} (nil : motive [])
    (joined : ∀ cs, motive cs → motive (sign :: ' ' :: '-' :: cs))
    (kept : ∀ c cs, (c = sign → ∀ d, ' ' :: '-' :: d ≠ cs) → motive cs → motive (c :: cs))
    (t : List Char) : motive t := by
  induction hn : t.length using Nat.strongRecOn generalizing t with
  | ind n ih =>
    cases t with
    | nil => exact nil
    | cons c cs =>
      rw [List.length_cons] at hn
      by_cases hjoin : c = sign ∧ ∃ d, ' ' :: '-' :: d = cs
      · obtain ⟨rfl, d, rfl⟩ := hjoin
        rw [List.length_cons, List.length_cons] at hn
        exact joined d (ih d.length (by omega) d rfl)
      · refine kept c cs ?_ (ih cs.length (by omega) cs rfl)
        intro hc d hd
        exact hjoin ⟨hc, d, hd⟩

namespace Joins

variable {sign operator : Char} {join : List Char → List Char} {t p : List Char}

theorem length_le (h : Joins sign operator join) (t : List Char) :
    (join t).length ≤ t.length := by
  induction t using run_induction sign with
  | nil => rw [h.nil]
  | joined cs ih =>
    rw [h.joined]
    simp only [List.length_cons]
    omega
  | kept c cs hc ih =>
    rw [h.kept hc, List.length_cons, List.length_cons]
    omega

theorem eq_self (h : Joins sign operator join) (hno : ¬ [sign, ' ', '-'] <:+: t) : join t = t := by
  induction t using run_induction sign with
  | nil => exact h.nil
  | joined cs ih => exact absurd ⟨[], cs, rfl⟩ hno
  | kept c cs hc ih =>
    rw [List.infix_cons_iff, not_or] at hno
    rw [h.kept hc, ih hno.2]

theorem length_lt (h : Joins sign operator join) (hin : [sign, ' ', '-'] <:+: t) :
    (join t).length < t.length := by
  induction t using run_induction sign with
  | nil => cases List.eq_nil_of_infix_nil hin
  | joined cs ih =>
    have := h.length_le cs
    rw [h.joined]
    simp only [List.length_cons]
    omega
  | kept c cs hc ih =>
    rw [List.infix_cons_iff] at hin
    rcases hin with ⟨d, hd⟩ | hin
    · obtain ⟨rfl, htail⟩ := List.cons.inj hd
      exact absurd htail (hc rfl d)
    · have := ih hin
      rw [h.kept hc, List.length_cons, List.length_cons]
      omega

/-- What is found in the result, and does not begin with a space, begins at a place where the run
has stood. -/
theorem exists_suffix (h : Joins sign operator join) (hp : p.head? ≠ some ' ') (hne : p ≠ [])
    (hin : p <:+: join t) : ∃ u, u <:+ t ∧ p <+: join u := by
  induction t using run_induction sign with
  | nil => exact absurd (List.eq_nil_of_infix_nil (h.nil ▸ hin)) hne
  | joined cs ih =>
    rw [h.joined, List.infix_cons_iff, List.infix_cons_iff] at hin
    rcases hin with hhere | hspace | hlater
    · exact ⟨_, List.suffix_rfl, by rwa [h.joined]⟩
    · rcases List.prefix_cons_iff.mp hspace with rfl | ⟨q, rfl, -⟩
      · exact absurd rfl hne
      · exact absurd rfl hp
    · obtain ⟨u, hu, hpu⟩ := ih hlater
      exact ⟨u, hu.trans ⟨[sign, ' ', '-'], rfl⟩, hpu⟩
  | kept c cs hc ih =>
    rw [h.kept hc, List.infix_cons_iff] at hin
    rcases hin with hhere | hlater
    · exact ⟨_, List.suffix_rfl, by rwa [h.kept hc]⟩
    · obtain ⟨u, hu, hpu⟩ := ih hlater
      exact ⟨u, hu.trans (List.suffix_cons c cs), hpu⟩

/-- The first character of a result was kept or is an operator that was put in. -/
theorem of_eq_cons (h : Joins sign operator join) {c : Char} {r : List Char}
    (heq : join t = c :: r) :
    (∃ cs, t = c :: cs ∧ join cs = r ∧ (c = sign → ∀ d, ' ' :: '-' :: d ≠ cs)) ∨
      ∃ cs, t = sign :: ' ' :: '-' :: cs ∧ c = operator ∧ ' ' :: join cs = r := by
  induction t using run_induction sign with
  | nil =>
    rw [h.nil] at heq
    cases heq
  | joined cs ih =>
    rw [h.joined] at heq
    obtain ⟨rfl, rfl⟩ := List.cons.inj heq
    exact Or.inr ⟨cs, rfl, rfl, rfl⟩
  | kept d cs hd ih =>
    rw [h.kept hd] at heq
    obtain ⟨rfl, rfl⟩ := List.cons.inj heq
    exact Or.inl ⟨cs, rfl, rfl, hd⟩

theorem of_eq_cons_of_ne (h : Joins sign operator join) {c : Char} {r : List Char}
    (hc : c ≠ operator) (heq : join t = c :: r) :
    ∃ cs, t = c :: cs ∧ join cs = r ∧ (c = sign → ∀ d, ' ' :: '-' :: d ≠ cs) := by
  rcases h.of_eq_cons heq with hkept | ⟨cs, -, hoperator, -⟩
  · exact hkept
  · exact absurd hoperator hc

end Joins

/-! ## What stands before and after the two runs -/

variable {t : List Char}

theorem not_minus_infix_joinMinus (t : List Char) : ¬ ['-', ' ', '-'] <:+: joinMinus t := by
  intro hin
  obtain ⟨u, -, r, hr⟩ := joins_joinMinus.exists_suffix (by decide) (by decide) hin
  obtain ⟨u₁, rfl, hu₁, hkept⟩ := joins_joinMinus.of_eq_cons_of_ne (by decide) hr.symm
  obtain ⟨u₂, rfl, hu₂, -⟩ := joins_joinMinus.of_eq_cons_of_ne (by decide) hu₁
  obtain ⟨u₃, rfl, -, -⟩ := joins_joinMinus.of_eq_cons_of_ne (by decide) hu₂
  exact hkept rfl u₃ rfl

/-- A plus before a minus sign was there before, or was a minus before two of them. -/
theorem infix_of_plus_infix_joinMinus (hin : ['+', ' ', '-'] <:+: joinMinus t) :
    ['+', ' ', '-'] <:+: t ∨ ['-', ' ', '-', '-'] <:+: t := by
  obtain ⟨u, hu, r, hr⟩ := joins_joinMinus.exists_suffix (by decide) (by decide) hin
  rcases joins_joinMinus.of_eq_cons hr.symm with ⟨u₁, rfl, hu₁, -⟩ | ⟨u₁, rfl, -, hu₁⟩
  · obtain ⟨u₂, rfl, hu₂, -⟩ := joins_joinMinus.of_eq_cons_of_ne (by decide) hu₁
    obtain ⟨u₃, rfl, -, -⟩ := joins_joinMinus.of_eq_cons_of_ne (by decide) hu₂
    exact Or.inl (List.IsInfix.trans ⟨[], u₃, rfl⟩ hu.isInfix)
  · obtain ⟨u₂, rfl, -, -⟩ := joins_joinMinus.of_eq_cons_of_ne (by decide) (List.cons.inj hu₁).2
    exact Or.inr (List.IsInfix.trans ⟨[], u₂, rfl⟩ hu.isInfix)

/-- A plus before a minus sign was a plus before an operator that has become a minus. -/
theorem infix_of_plus_infix_joinPlus (hin : ['+', ' ', '-'] <:+: joinPlus t) :
    ['+', ' ', '+', ' ', '-'] <:+: t := by
  obtain ⟨u, hu, r, hr⟩ := joins_joinPlus.exists_suffix (by decide) (by decide) hin
  obtain ⟨u₁, rfl, hu₁, hkept⟩ := joins_joinPlus.of_eq_cons_of_ne (by decide) hr.symm
  obtain ⟨u₂, rfl, hu₂, -⟩ := joins_joinPlus.of_eq_cons_of_ne (by decide) hu₁
  rcases joins_joinPlus.of_eq_cons hu₂ with ⟨u₃, rfl, -, -⟩ | ⟨u₃, rfl, -, -⟩
  · exact absurd rfl (hkept rfl u₃)
  · exact List.IsInfix.trans ⟨[], u₃, rfl⟩ hu.isInfix

theorem infix_of_minus_infix_joinPlus (hin : ['-', '-'] <:+: joinPlus t) :
    ['-', '-'] <:+: t ∨ ['-', '+', ' ', '-'] <:+: t := by
  obtain ⟨u, hu, r, hr⟩ := joins_joinPlus.exists_suffix (by decide) (by decide) hin
  rcases joins_joinPlus.of_eq_cons hr.symm with ⟨u₁, rfl, hu₁, -⟩ | ⟨u₁, -, -, hu₁⟩
  · rcases joins_joinPlus.of_eq_cons hu₁ with ⟨u₂, rfl, -, -⟩ | ⟨u₂, rfl, -, -⟩
    · exact Or.inl (List.IsInfix.trans ⟨[], u₂, rfl⟩ hu.isInfix)
    · exact Or.inr (List.IsInfix.trans ⟨[], u₂, rfl⟩ hu.isInfix)
  · cases hu₁

theorem joined_joined_iff (t : List Char) :
    joined (joined t) = joined t ↔ ¬ ['+', ' ', '-'] <:+: joined t := by
  have hminus : joinMinus (joined t) = joined t :=
    joins_joinMinus.eq_self (not_minus_infix_joinMinus _)
  constructor
  · intro heq hin
    have hplus := joins_joinPlus.length_lt hin
    have hle := joins_joinMinus.length_le (joinPlus (joined t))
    rw [← joined, heq] at hle
    omega
  · intro hno
    nth_rewrite 1 [joined]
    rw [joins_joinPlus.eq_self hno, hminus]

/-- Two minus signs without a space, or two operators with one space between them, are what a
second run would find something to join in. -/
theorem not_plus_infix_joined (hminus : ¬ ['-', '-'] <:+: t)
    (hoperator : ¬ ['-', '+', ' ', '-'] <:+: t) (hplus : ¬ ['+', ' ', '+', ' ', '-'] <:+: t) :
    ¬ ['+', ' ', '-'] <:+: joined t := by
  intro hin
  rcases infix_of_plus_infix_joinMinus hin with hin | hin
  · exact hplus (infix_of_plus_infix_joinPlus hin)
  · have hpair : ['-', '-'] <:+: joinPlus t := List.IsInfix.trans ⟨['-', ' '], [], rfl⟩ hin
    rcases infix_of_minus_infix_joinPlus hpair with hin | hin
    · exact hminus hin
    · exact hoperator hin

theorem toList_normalize (text : String) : (normalize text).toList = joined text.toList :=
  String.toList_ofList

/-- Only a plus before a minus sign can be left, and exactly then a second run changes the text. It
is left in no text without two minus signs or operators that stand too close. -/
theorem normalize_idempotent_iff (text : String) :
    ¬ "- -".toList <:+: (normalize text).toList ∧
      (normalize (normalize text) = normalize text ↔
        ¬ "+ -".toList <:+: (normalize text).toList) ∧
      ((∀ p ∈ ["--", "-+ -", "+ + -"], ¬ p.toList <:+: text.toList) →
        normalize (normalize text) = normalize text) := by
  have hiff : normalize (normalize text) = normalize text ↔
      ¬ "+ -".toList <:+: (normalize text).toList := by
    rw [← String.toList_inj, toList_normalize, toList_normalize]
    exact joined_joined_iff text.toList
  refine ⟨?_, hiff, ?_⟩
  · rw [toList_normalize]
    exact not_minus_infix_joinMinus _
  · intro hno
    rw [hiff, toList_normalize]
    exact not_plus_infix_joined (hno "--" (by simp)) (hno "-+ -" (by simp)) (hno "+ + -" (by simp))

theorem normalize_not_idempotent : normalize (normalize "+ + -") ≠ normalize "+ + -" := by
  decide

end Signs

end RegressionScript
