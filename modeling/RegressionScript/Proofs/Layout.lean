import Mathlib.Data.List.Basic
import RegressionScript.Program.Function

/-!
# Layout of the generated text

Filling, indenting and splitting into words only move blanks, so a reading that takes a blank for a
mere separator finds the same in the lines as in what they were made of. Joining signs acts at the
boundaries of terms only.
-/

namespace RegressionScript

set_option autoImplicit false

/-! ## Lines -/

theorem Settings.check_eq_ok_iff {s : Settings} :
    s.check = .ok () ↔ s.decimalPlaces ≤ maxDecimalPlaces ∧ s.indentIsBlank = true ∧
      s.indentWidth < s.lineLength := by
  unfold check
  split
  · rename_i hplaces
    simp [Nat.not_le.mpr hplaces]
  · rename_i hplaces
    split
    · rename_i hblank
      simp_all
    · rename_i hblank
      split
      · rename_i hlength
        simp [Nat.not_lt.mpr hlength]
      · rename_i hlength
        simp_all

theorem Words.splitFrom_cons (word : List Char) (c : Char) (cs : List Char) :
    splitFrom word (c :: cs) =
      if isBlank c then splitFrom word [] ++ splitFrom [] cs else splitFrom (c :: word) cs := by
  cases word <;> rfl

/-- A blank only divides what is read on its two sides. -/
structure Words.Divides {β : Type} (read : List Char → List β) : Prop where
  nil : read [] = []
  blank : ∀ (a b : List Char) {c : Char}, isBlank c = true → read (a ++ c :: b) = read a ++ read b

namespace Words.Divides

variable {β : Type} {read : List Char → List β}

theorem cons (h : Divides read) {c : Char} (hc : isBlank c = true) (cs : List Char) :
    read (c :: cs) = read cs := by
  have hblank := h.blank [] cs hc
  rw [h.nil] at hblank
  exact hblank

theorem append_of_blank (h : Divides read) {indent : List Char}
    (hindent : ∀ c ∈ indent, isBlank c = true) (cs : List Char) :
    read (indent ++ cs) = read cs := by
  induction indent with
  | nil => rfl
  | cons c indent ih =>
    rw [List.cons_append, h.cons (hindent c List.mem_cons_self)]
    exact ih fun d hd => hindent d (List.mem_cons_of_mem c hd)

theorem intercalate (h : Divides read) {c : Char} (hc : isBlank c = true) {indent : List Char}
    (hindent : ∀ c ∈ indent, isBlank c = true) (lines : List (List Char)) :
    read (List.intercalate (c :: indent) lines) = lines.flatMap read := by
  induction lines with
  | nil => exact h.nil
  | cons line lines ih =>
    cases lines with
    | nil => simp
    | cons next lines =>
      rw [List.intercalate_cons_cons, List.append_assoc, List.cons_append, h.blank _ _ hc,
        h.append_of_blank hindent, ih, ← List.flatMap_cons]

theorem indented (h : Divides read) {indent : List Char}
    (hindent : ∀ c ∈ indent, isBlank c = true) (lines : List (List Char)) :
    read (Function.indented indent lines) = lines.flatMap read := by
  rw [Function.indented, h.append_of_blank hindent, h.intercalate (by decide) hindent]

theorem fillFrom (h : Divides read) (width : Nat) (line : List Char) (units : List (List Char)) :
    (Fill.fillFrom width line units).flatMap read = read line ++ units.flatMap read := by
  induction units generalizing line with
  | nil =>
    by_cases hline : line = []
    · simp [Fill.fillFrom, hline, h.nil]
    · simp [Fill.fillFrom, hline]
  | cons unit units ih =>
    rw [Fill.fillFrom]
    split
    · rename_i hline
      rw [ih, hline, h.nil, List.nil_append, List.flatMap_cons]
    · split
      · rw [ih, h.blank _ _ (by decide), List.flatMap_cons, List.append_assoc]
      · rw [List.flatMap_cons, ih, List.flatMap_cons]

theorem fill (h : Divides read) (width : Nat) (units : List (List Char)) :
    (Fill.fill width units).flatMap read = units.flatMap read := by
  rw [Fill.fill, h.fillFrom, h.nil, List.nil_append]

theorem splitFrom (h : Divides read) (word cs : List Char) :
    (Words.splitFrom word cs).flatMap read = read (word.reverse ++ cs) := by
  have hnil (w : List Char) : (Words.splitFrom w []).flatMap read = read w.reverse := by
    cases w with
    | nil => exact h.nil.symm
    | cons c w => exact List.append_nil _
  induction cs generalizing word with
  | nil => rw [hnil, List.append_nil]
  | cons c cs ih =>
    rw [Words.splitFrom_cons]
    split
    · rename_i hc
      rw [List.flatMap_append, hnil, ih, h.blank _ _ hc, List.reverse_nil, List.nil_append]
    · rw [ih, List.reverse_cons, List.append_assoc, List.singleton_append]

theorem fillWords (h : Divides read) (width : Nat) (text : List Char) :
    (Fill.fillWords width text).flatMap read = read text := by
  rw [Fill.fillWords, h.fill, Words.split, h.splitFrom, List.reverse_nil, List.nil_append]

end Words.Divides

theorem Fill.fillFrom_ne_nil (width : Nat) {line : List Char} (h : line ≠ [])
    (units : List (List Char)) : fillFrom width line units ≠ [] := by
  induction units generalizing line with
  | nil => simp [fillFrom, h]
  | cons unit units ih =>
    rw [fillFrom, if_neg h]
    split
    · exact ih (by simp)
    · exact List.cons_ne_nil _ _

theorem Function.fill_vectorUnits_ne_nil (width places : Nat) (e : Expr) (es : List Expr) :
    Fill.fill width (vectorUnits places (e :: es)) ≠ [] := by
  rw [Fill.fill]
  cases es with
  | nil =>
    rw [vectorUnits, Fill.fillFrom, if_pos rfl]
    exact Fill.fillFrom_ne_nil width (by simp) _
  | cons e' es =>
    rw [vectorUnits, Fill.fillFrom, if_pos rfl]
    · exact Fill.fillFrom_ne_nil width (by simp) _
    · simp

/-- An array that has elements has them, with what follows each, in its lines. -/
theorem Words.Divides.vectorLines {β : Type} {read : List Char → List β} (h : Divides read)
    (s : Settings) (e : Expr) (es : List Expr) :
    (Function.vectorLines s (e :: es)).flatMap read =
      (Function.vectorUnits s.decimalPlaces (e :: es)).flatMap read := by
  rw [Function.vectorLines]
  split
  · rename_i hnil
    exact absurd hnil (Function.fill_vectorUnits_ne_nil _ _ e es)
  · exact h.fill s.textWidth _

/-! ## Signs -/

namespace Signs

/-- Every such sign is followed by something other than a space. -/
def Attached (sign : Char) : List Char → Prop
  | [] => True
  | c :: cs => (c = sign → ∃ d ∈ cs.head?, d ≠ ' ') ∧ Attached sign cs

variable {sign : Char} {a b cs : List Char}

theorem attached_append (ha : Attached sign a) (hb : Attached sign b) : Attached sign (a ++ b) := by
  induction a with
  | nil => exact hb
  | cons c a ih =>
    refine ⟨fun hc => ?_, ih ha.2⟩
    obtain ⟨d, hd, hne⟩ := ha.1 hc
    exact ⟨d, by cases a <;> simp_all, hne⟩

theorem attached_of_not_mem (h : sign ∉ cs) : Attached sign cs := by
  induction cs with
  | nil => exact trivial
  | cons c cs ih =>
    rw [List.mem_cons, not_or] at h
    exact ⟨fun hc => absurd hc.symm h.1, ih h.2⟩

theorem attached_cons {c d : Char} (hd : d ≠ ' ') (h : Attached sign (d :: cs)) :
    Attached sign (c :: d :: cs) :=
  ⟨fun _ => ⟨d, rfl, hd⟩, h⟩

theorem Attached.space_cons_ne (h : Attached sign (sign :: a)) (b d : List Char) :
    ' ' :: d ≠ a ++ b := by
  obtain ⟨e, he, hne⟩ := h.1 rfl
  cases a with
  | nil => cases he
  | cons x a =>
    cases he
    intro heq
    exact hne (List.cons.inj heq).1.symm

theorem joinPlus_cons {c : Char} (h : c = '+' → ∀ d, ' ' :: '-' :: d ≠ cs) :
    joinPlus (c :: cs) = c :: joinPlus cs := by
  rw [joinPlus]
  intro d hc hcs
  exact h hc d hcs.symm

theorem joinMinus_cons {c : Char} (h : c = '-' → ∀ d, ' ' :: '-' :: d ≠ cs) :
    joinMinus (c :: cs) = c :: joinMinus cs := by
  rw [joinMinus]
  intro d hc hcs
  exact h hc d hcs.symm

theorem joinPlus_append (ha : Attached '+' a) (b : List Char) :
    joinPlus (a ++ b) = a ++ joinPlus b := by
  induction a with
  | nil => rfl
  | cons c a ih =>
    rw [List.cons_append, List.cons_append, joinPlus_cons, ih ha.2]
    rintro rfl d
    exact ha.space_cons_ne b _

theorem joinMinus_append (ha : Attached '-' a) (b : List Char) :
    joinMinus (a ++ b) = a ++ joinMinus b := by
  induction a with
  | nil => rfl
  | cons c a ih =>
    rw [List.cons_append, List.cons_append, joinMinus_cons, ih ha.2]
    rintro rfl d
    exact ha.space_cons_ne b _

/-- The text of a number without its sign, or of a product that begins with one. -/
structure Unsigned (u : List Char) : Prop where
  head : ∃ c ∈ u.head?, c ≠ '-' ∧ c ≠ ' '
  plus : Attached '+' u
  minus : Attached '-' u

theorem Unsigned.append (h : Unsigned a) (hplus : '+' ∉ b) (hminus : '-' ∉ b) :
    Unsigned (a ++ b) := by
  obtain ⟨c, hc, hne⟩ := h.head
  refine ⟨⟨c, ?_, hne⟩, attached_append h.plus (attached_of_not_mem hplus),
    attached_append h.minus (attached_of_not_mem hminus)⟩
  cases a with
  | nil => cases hc
  | cons d a => exact hc

/-- A sign and the text that follows it. -/
def signed (t : Bool × List Char) : List Char :=
  Literal.signText t.1 ++ t.2

/-- The operator that puts a term with this sign into a sum. -/
def operatorText (negative : Bool) : List Char :=
  if negative then " - ".toList else " + ".toList

variable {t : Bool × List Char}

theorem attached_signed (h : Unsigned t.2) (hs : Attached sign t.2) : Attached sign (signed t) := by
  obtain ⟨negative, u⟩ := t
  obtain ⟨c, hc, -, hspace⟩ := h.head
  cases negative with
  | false => exact hs
  | true =>
    cases u with
    | nil => cases hc
    | cons d u =>
      cases hc
      exact attached_cons hspace hs

theorem joinPlus_term (h : Unsigned t.2) (rest : List Char) :
    joinPlus (" + ".toList ++ (signed t ++ rest)) = operatorText t.1 ++ (t.2 ++ joinPlus rest) := by
  obtain ⟨negative, u⟩ := t
  cases negative with
  | true =>
    calc joinPlus (" + ".toList ++ (signed (true, u) ++ rest))
        = " - ".toList ++ joinPlus (u ++ rest) := rfl
      _ = " - ".toList ++ (u ++ joinPlus rest) := by rw [joinPlus_append h.plus]
  | false =>
    obtain ⟨c, hc, hminus, -⟩ := h.head
    cases u with
    | nil => cases hc
    | cons d u =>
      cases hc
      have hplus : joinPlus ('+' :: ' ' :: (c :: u ++ rest)) =
          '+' :: joinPlus (' ' :: (c :: u ++ rest)) :=
        joinPlus_cons fun _ e he => hminus (List.cons.inj (List.cons.inj he).2).1.symm
      calc joinPlus (" + ".toList ++ (signed (false, c :: u) ++ rest))
          = ' ' :: joinPlus ('+' :: ' ' :: (c :: u ++ rest)) := rfl
        _ = " + ".toList ++ joinPlus (c :: u ++ rest) := by rw [hplus]; rfl
        _ = " + ".toList ++ (c :: u ++ joinPlus rest) := by rw [joinPlus_append h.plus]

theorem joinMinus_term (h : Unsigned t.2) (rest : List Char) :
    joinMinus (" - ".toList ++ (signed t ++ rest)) =
      operatorText (!t.1) ++ (t.2 ++ joinMinus rest) := by
  obtain ⟨negative, u⟩ := t
  cases negative with
  | true =>
    calc joinMinus (" - ".toList ++ (signed (true, u) ++ rest))
        = " + ".toList ++ joinMinus (u ++ rest) := rfl
      _ = " + ".toList ++ (u ++ joinMinus rest) := by rw [joinMinus_append h.minus]
  | false =>
    obtain ⟨c, hc, hminus, -⟩ := h.head
    cases u with
    | nil => cases hc
    | cons d u =>
      cases hc
      have hcons : joinMinus ('-' :: ' ' :: (c :: u ++ rest)) =
          '-' :: joinMinus (' ' :: (c :: u ++ rest)) :=
        joinMinus_cons fun _ e he => hminus (List.cons.inj (List.cons.inj he).2).1.symm
      calc joinMinus (" - ".toList ++ (signed (false, c :: u) ++ rest))
          = ' ' :: joinMinus ('-' :: ' ' :: (c :: u ++ rest)) := rfl
        _ = " - ".toList ++ joinMinus (c :: u ++ rest) := by rw [hcons]; rfl
        _ = " - ".toList ++ (c :: u ++ joinMinus rest) := by rw [joinMinus_append h.minus]

theorem joinMinus_operatorText (h : Unsigned a) (negative : Bool) (rest : List Char) :
    joinMinus (operatorText negative ++ (a ++ rest)) =
      operatorText negative ++ (a ++ joinMinus rest) := by
  cases negative with
  | true => exact joinMinus_term (t := (false, a)) h rest
  | false =>
    rw [joinMinus_append (attached_of_not_mem (by decide)), joinMinus_append h.minus]

/-- The terms of a sum after the first one. -/
def laterTerms (ts : List (Bool × List Char)) : List Char :=
  ts.flatMap fun t => operatorText t.1 ++ t.2

theorem laterTerms_cons (t : Bool × List Char) (ts : List (Bool × List Char)) :
    laterTerms (t :: ts) = operatorText t.1 ++ (t.2 ++ laterTerms ts) :=
  List.append_assoc _ _ _

variable {ts : List (Bool × List Char)}

theorem joinPlus_terms (h : ∀ t ∈ ts, Unsigned t.2) :
    joinPlus (ts.flatMap fun t => " + ".toList ++ signed t) = laterTerms ts := by
  induction ts with
  | nil => rfl
  | cons t ts ih =>
    rw [List.forall_mem_cons] at h
    rw [List.flatMap_cons, List.append_assoc, joinPlus_term h.1, ih h.2, laterTerms_cons]

theorem joinMinus_laterTerms (h : ∀ t ∈ ts, Unsigned t.2) :
    joinMinus (laterTerms ts) = laterTerms ts := by
  induction ts with
  | nil => rfl
  | cons t ts ih =>
    rw [List.forall_mem_cons] at h
    rw [laterTerms_cons, joinMinus_operatorText h.1, ih h.2]

theorem intercalate_cons_eq_flatMap {α : Type} (sep x : List α) (xs : List (List α)) :
    List.intercalate sep (x :: xs) = x ++ xs.flatMap (sep ++ ·) := by
  induction xs generalizing x with
  | nil => simp
  | cons y ys ih => rw [List.intercalate_cons_cons, ih, List.flatMap_cons, List.append_assoc,
      List.append_assoc]

/-- In a sum a term keeps its sign where it stands first, and has it as the operator elsewhere. -/
theorem joined_sum (h : ∀ u ∈ t :: ts, Unsigned u.2) :
    joined (List.intercalate " + ".toList ((t :: ts).map signed)) = signed t ++ laterTerms ts := by
  rw [List.forall_mem_cons] at h
  rw [List.map_cons, intercalate_cons_eq_flatMap, List.flatMap_map, joined,
    joinPlus_append (attached_signed h.1 h.1.plus), joinPlus_terms h.2,
    joinMinus_append (attached_signed h.1 h.1.minus), joinMinus_laterTerms h.2]

theorem joinPlus_eq_self (h : Attached '+' a) : joinPlus a = a := by
  have happend := joinPlus_append h []
  rw [List.append_nil, joinPlus, List.append_nil] at happend
  exact happend

theorem joinMinus_eq_self (h : Attached '-' a) : joinMinus a = a := by
  have happend := joinMinus_append h []
  rw [List.append_nil, joinMinus, List.append_nil] at happend
  exact happend

/-- A minus before a number takes the sign of the number into the operator. -/
theorem joined_difference {before after : List Char} (hplus : '+' ∉ before) (hminus : '-' ∉ before)
    (h : Unsigned t.2) (hafter : Attached '+' after) (hafter' : Attached '-' after) :
    joined (before ++ (" - ".toList ++ (signed t ++ after))) =
      before ++ (operatorText (!t.1) ++ (t.2 ++ after)) := by
  have hattached : Attached '+' (before ++ (" - ".toList ++ (signed t ++ after))) :=
    attached_append (attached_of_not_mem hplus) <|
      attached_append (attached_of_not_mem (by decide)) <|
        attached_append (attached_signed h h.plus) hafter
  rw [joined, joinPlus_eq_self hattached, joinMinus_append (attached_of_not_mem hminus),
    joinMinus_term h, joinMinus_eq_self hafter']

end Signs

end RegressionScript
