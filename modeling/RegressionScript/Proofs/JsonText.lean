import Mathlib
import RegressionScript.Proofs.JsonNumbers

/-!
# Reading what is written

Every text of the writer is read as the value that it is made for, whatever follows it. The steps
that the reader may take are bounded by the length of the text. Strings may hold any characters.
-/

namespace RegressionScript.Json.Reader

set_option autoImplicit false

variable {cs rest : List Char}

/-! ## Strings -/

/-- One more code in front of those that are read from the text after it. -/
def push (code : Nat) (result : Option (List Nat × List Char)) : Option (List Nat × List Char) :=
  result.map fun r => (code :: r.1, r.2)

theorem codes?_escaped {c : Char} {code : Nat} (h : escape? c = some code) :
    codes? ('\\' :: c :: cs) = push code (codes? cs) := by
  have hu : c ≠ 'u' := by
    rintro rfl
    cases h
  rw [codes?]
  · rw [h]
    cases codes? cs <;> rfl
  · intro a b c' d cs' huc
    exact absurd huc hu

theorem codes?_unicode {a b c d : Char} {code : Nat} (h : hex4? a b c d = some code) :
    codes? ('\\' :: 'u' :: a :: b :: c :: d :: cs) = push code (codes? cs) := by
  rw [codes?, h]
  cases codes? cs <;> rfl

theorem codes?_plain {c : Char} (hquote : c ≠ '\x22') (hslash : c ≠ '\\') (h : 32 ≤ c.toNat) :
    codes? (c :: cs) = push c.toNat (codes? cs) := by
  rw [codes?]
  · rw [if_neg (not_or.mpr ⟨by omega, hslash⟩)]
    cases codes? cs <;> rfl
  · exact hquote
  · intro a b c' d cs' hc
    exact absurd hc hslash
  · intro c' cs' hc
    exact absurd hc hslash

theorem hex4?_hexDigit {n : Nat} (hn : n < 32) :
    hex4? '0' '0' (Writer.hexDigit (n / 16)) (Writer.hexDigit (n % 16)) = some n := by
  decide +revert

theorem codes?_escape (c : Char) (cs : List Char) :
    codes? (Writer.escape c ++ cs) = push c.toNat (codes? cs) := by
  unfold Writer.escape
  split_ifs with hself hb ht hn hf hr hcontrol
  · exact codes?_escaped (by rcases hself with rfl | rfl <;> rfl)
  · exact codes?_escaped (by rw [hb]; rfl)
  · exact codes?_escaped (by rw [ht]; rfl)
  · exact codes?_escaped (by rw [hn]; rfl)
  · exact codes?_escaped (by rw [hf]; rfl)
  · exact codes?_escaped (by rw [hr]; rfl)
  · exact codes?_unicode (hex4?_hexDigit hcontrol)
  · rw [not_or] at hself
    exact codes?_plain hself.1 hself.2 (not_lt.mp hcontrol)

theorem codes?_flatMap_escape (s rest : List Char) :
    codes? (s.flatMap Writer.escape ++ '\x22' :: rest) = some (s.map Char.toNat, rest) := by
  induction s with
  | nil => rfl
  | cons c s ih =>
    rw [List.flatMap_cons, List.append_assoc, codes?_escape, ih]
    rfl

theorem not_isSurrogate (c : Char) :
    isHighSurrogate c.toNat = false ∧ isLowSurrogate c.toNat = false := by
  have hvalid : c.toNat < 0xD800 ∨ 0xDFFF < c.toNat ∧ c.toNat < 0x110000 := c.valid
  simp only [isHighSurrogate, isLowSurrogate, Bool.and_eq_false_iff, decide_eq_false_iff_not]
  omega

theorem decode?_map_toNat (s : List Char) : decode? (s.map Char.toNat) = some s := by
  induction s with
  | nil => rfl
  | cons c s ih =>
    obtain ⟨hhigh, hlow⟩ := not_isSurrogate c
    cases s with
    | nil => simp [decode?, hhigh, hlow]
    | cons d s =>
      rw [List.map_cons, List.map_cons, decode?, hhigh, hlow]
      rw [List.map_cons] at ih
      simp [ih]

/-- A string is read back, whatever characters it holds. -/
theorem string?_string (s : String) (rest : List Char) :
    string? (s.toList.flatMap Writer.escape ++ '\x22' :: rest) = some (some s, rest) := by
  simp only [string?, codes?_flatMap_escape, Option.bind_eq_bind, Option.bind_some,
    decode?_map_toNat, Option.map_some, String.ofList_toList]

/-! ## Values -/

/-- A text that is read as a value, given steps enough for its length, if what follows cannot belong
to it. It begins with neither a blank nor the end of an array. -/
structure Reads (cs : List Char) (j : Json) : Prop where
  start : ∃ c, cs.head? = some c ∧ isBlank c = false ∧ c ≠ ']'
  read : ∀ (fuel : Nat) (rest : List Char), cs.length ≤ fuel + 1 → Ends rest →
    value? (fuel + 1) (cs ++ rest) = some (j, rest)

variable {j : Json}

theorem Reads.exists_eq_cons (h : Reads cs j) :
    ∃ c cs', cs = c :: cs' ∧ isBlank c = false ∧ c ≠ ']' := by
  obtain ⟨c, hc, hstart⟩ := h.start
  obtain ⟨cs', rfl⟩ := List.head?_eq_some_iff.mp hc
  exact ⟨c, cs', rfl, hstart⟩

theorem Reads.length_pos (h : Reads cs j) : 0 < cs.length := by
  obtain ⟨c, cs', rfl, -⟩ := h.exists_eq_cons
  exact Nat.succ_pos _

theorem Reads.value? (h : Reads cs j) {fuel : Nat} (hfuel : cs.length ≤ fuel) (hrest : Ends rest) :
    value? fuel (cs ++ rest) = some (j, rest) := by
  cases fuel with
  | zero => exact absurd h.length_pos (by omega)
  | succ fuel => exact h.read fuel rest hfuel hrest

theorem skipBlanks_cons {c : Char} (h : isBlank c = false) (cs : List Char) :
    skipBlanks (c :: cs) = c :: cs := by
  rw [skipBlanks, List.dropWhile_cons_of_neg (by simp [h])]

theorem reads_null : Reads "null".toList .null where
  start := ⟨'n', rfl, rfl, by decide⟩
  read := fun _ _ _ _ => rfl

theorem reads_string (s : String) : Reads (Writer.string s) (.string (some s)) where
  start := ⟨'\x22', rfl, rfl, by decide⟩
  read := by
    intro fuel rest _ _
    rw [Writer.string, List.cons_append, List.append_assoc, List.singleton_append, Reader.value?,
      skipBlanks_cons rfl]
    simp [string?_string]

theorem isBlank_of_isDigit {c : Char} (hc : c.isDigit = true) : isBlank c = false := by
  rw [isBlank]
  by_contra h
  simp only [Bool.not_eq_false, Bool.or_eq_true, beq_iff_eq] at h
  rcases h with ((rfl | rfl) | rfl) | rfl <;> cases hc

theorem value?_digit {c : Char} (hc : c.isDigit = true) (fuel : Nat) (cs : List Char) :
    value? (fuel + 1) (c :: cs) = unsigned? false (c :: cs) := by
  rw [value?, skipBlanks_cons (isBlank_of_isDigit hc)]
  split
  case h_8 => rfl
  all_goals
    rename_i heq
    cases heq
    cases hc

theorem exists_digit_of_unsigned? {negative : Bool} {result : Json × List Char}
    (h : unsigned? negative cs = some result) : ∃ c cs', cs = c :: cs' ∧ c.isDigit = true := by
  cases cs with
  | nil => cases h
  | cons c cs =>
    refine ⟨c, cs, rfl, ?_⟩
    by_contra hc
    simp [unsigned?, whole?, digits1?, hc] at h

/-- Numbers begin with a digit or a minus sign, which sets them apart from other values. -/
theorem reads_number {negative integral : Bool} {d : Decimal}
    (h : ∀ rest, Ends rest →
      unsigned? negative (cs ++ rest) = some (.number negative d integral, rest)) :
    Reads (if negative then '-' :: cs else cs) (.number negative d integral) := by
  cases negative with
  | false =>
    have hnil := h [] (by simp [Ends])
    rw [List.append_nil] at hnil
    obtain ⟨c, cs, rfl, hc⟩ := exists_digit_of_unsigned? hnil
    refine ⟨⟨c, rfl, isBlank_of_isDigit hc, ?_⟩, fun fuel rest _ hrest => ?_⟩
    · rintro rfl
      cases hc
    · exact (value?_digit hc fuel (cs ++ rest)).trans (h rest hrest)
  | true => exact ⟨⟨'-', rfl, rfl, by decide⟩, fun _ rest _ hrest => h rest hrest⟩

theorem reads_natural (n : Nat) : Reads (Writer.natural n) (.number false ⟨n, 0⟩ true) :=
  @reads_number _ false true ⟨n, 0⟩ fun _ hrest => unsigned?_natural false n hrest

theorem reads_float (v : Float) : Reads (Writer.float v) (ofFloat v) := by
  rw [Writer.float, ofFloat]
  cases hv : Binary64.ofFloat v with
  | finite negative significand exponent =>
    obtain ⟨-, -, hdigits⟩ := Decimal.shortest_spec .even (Binary64.canonical_of_ofBits hv)
    exact reads_number fun _ hrest => unsigned?_magnitude negative hdigits hrest
  | nan => exact reads_null
  | infinite negative => exact reads_null

/-! ## Arrays and objects -/

theorem ends_cons {c : Char} (h : c = ',' ∨ c = ']' ∨ c = '\x7d') (rest : List Char) :
    Ends (c :: rest) := by
  rintro _ ⟨⟩
  exact h

theorem items?_intercalate {texts : List (List Char)} {items : List Json}
    (h : List.Forall₂ Reads texts items) (hne : texts ≠ []) (rest : List Char) :
    ∀ fuel, (List.intercalate [','] texts).length < fuel →
      items? fuel (List.intercalate [','] texts ++ ']' :: rest) = some (items, rest) := by
  induction h with
  | nil => exact absurd rfl hne
  | @cons text item texts items hitem hitems ih =>
    intro fuel hfuel
    obtain ⟨fuel, rfl⟩ := Nat.exists_eq_add_one_of_ne_zero (Nat.ne_zero_of_lt hfuel)
    have hpos := hitem.length_pos
    cases hitems with
    | nil =>
      rw [List.intercalate_singleton] at *
      have hvalue := hitem.value? (Nat.le_of_lt_succ hfuel) (ends_cons (.inr (.inl rfl)) rest)
      simp [items?, hvalue, skipBlanks_cons (show isBlank ']' = false by rfl)]
    | cons hnext hitems =>
      rw [List.intercalate_cons_cons] at *
      simp only [List.length_append, List.length_singleton] at hfuel
      -- an item is not empty, so that it leaves a step for each character of the others
      rw [List.append_assoc, List.append_assoc, List.singleton_append, items?,
        hitem.value? (by omega) (ends_cons (.inl rfl) _)]
      simp [skipBlanks_cons (show isBlank ',' = false by rfl), ih (by simp) fuel (by omega)]

theorem exists_intercalate_cons (text : List Char) (texts : List (List Char)) :
    ∃ tail, List.intercalate [','] (text :: texts) = text ++ tail := by
  cases texts with
  | nil => exact ⟨[], by simp⟩
  | cons next texts => exact ⟨_, List.intercalate_cons_cons.trans (List.append_assoc _ _ _)⟩

theorem reads_array {texts : List (List Char)} {items : List Json}
    (h : List.Forall₂ Reads texts items) : Reads (Writer.array texts) (.array items) where
  start := ⟨'[', rfl, rfl, by decide⟩
  read := by
    intro fuel rest hfuel hrest
    rw [Writer.array, List.length_cons, List.length_append, List.length_singleton] at hfuel
    rw [Writer.array, List.cons_append, List.append_assoc, List.singleton_append, Reader.value?,
      skipBlanks_cons rfl]
    cases h with
    | nil => rfl
    | @cons text item texts items hitem hitems =>
      have hread := items?_intercalate (.cons hitem hitems) (by simp) rest fuel (by omega)
      obtain ⟨tail, htail⟩ := exists_intercalate_cons text texts
      obtain ⟨c, cs, rfl, hblank, hend⟩ := hitem.exists_eq_cons
      rw [htail, List.cons_append, List.cons_append] at hread ⊢
      generalize cs ++ tail ++ ']' :: rest = following at hread
      simp [skipBlanks_cons hblank, hend, hread]

/-- A member of an object is read as a key and a value. -/
def ReadsMember (text : String × List Char) (member : Option String × Json) : Prop :=
  member.1 = some text.1 ∧ Reads text.2 member.2

theorem members?_member (key : String) {text : List Char} (h : Reads text j) {fuel : Nat}
    (hfuel : text.length ≤ fuel) {c : Char} (hc : c = ',' ∨ c = ']' ∨ c = '\x7d') :
    members? (fuel + 1) (Writer.member key text ++ c :: cs) =
      if c = '\x7d' then some ([(some key, j)], cs)
      else if c = ',' then (members? fuel cs).bind fun r => some ((some key, j) :: r.1, r.2)
      else none := by
  have hblank : isBlank c = false := by rcases hc with rfl | rfl | rfl <;> rfl
  rw [Writer.member, Writer.string, List.cons_append, List.cons_append, members?,
    skipBlanks_cons rfl, List.append_assoc, List.append_assoc, List.singleton_append]
  simp only [string?_string, Option.bind_eq_bind, Option.bind_some]
  rw [List.cons_append, skipBlanks_cons rfl]
  simp only [h.value? hfuel (ends_cons hc cs), Option.bind_some, skipBlanks_cons hblank]
  rcases hc with rfl | rfl | rfl <;> rfl

theorem members?_intercalate {texts : List (String × List Char)}
    {members : List (Option String × Json)} (h : List.Forall₂ ReadsMember texts members)
    (hne : texts ≠ []) (rest : List Char) :
    ∀ fuel, (List.intercalate [','] (texts.map fun m => Writer.member m.1 m.2)).length < fuel →
      members? fuel (List.intercalate [','] (texts.map fun m => Writer.member m.1 m.2) ++
        '\x7d' :: rest) = some (members, rest) := by
  induction h with
  | nil => exact absurd rfl hne
  | @cons text member texts members hmember hmembers ih =>
    intro fuel hfuel
    obtain ⟨fuel, rfl⟩ := Nat.exists_eq_add_one_of_ne_zero (Nat.ne_zero_of_lt hfuel)
    obtain ⟨key, value⟩ := member
    obtain ⟨rfl, hvalue⟩ := hmember
    have hlength : text.2.length < (Writer.member text.1 text.2).length := by
      simp only [Writer.member, List.length_append, List.length_cons]
      omega
    cases hmembers with
    | nil =>
      rw [List.map_singleton, List.intercalate_singleton] at *
      rw [members?_member text.1 hvalue (by omega) (.inr (.inr rfl)), if_pos rfl]
    | cons hnext hmembers =>
      rw [List.map_cons, List.map_cons, List.intercalate_cons_cons] at *
      simp only [List.length_append, List.length_singleton] at hfuel
      rw [List.append_assoc, List.append_assoc, List.singleton_append,
        members?_member text.1 hvalue (by omega) (.inl rfl), if_neg (by decide), if_pos rfl,
        ih (by simp) fuel (by omega), Option.bind_some]

theorem reads_object {texts : List (String × List Char)} {members : List (Option String × Json)}
    (h : List.Forall₂ ReadsMember texts members) :
    Reads (Writer.object texts) (.object members) where
  start := ⟨'\x7b', rfl, rfl, by decide⟩
  read := by
    intro fuel rest hfuel hrest
    rw [Writer.object, List.length_cons, List.length_append, List.length_singleton] at hfuel
    rw [Writer.object, List.cons_append, List.append_assoc, List.singleton_append, Reader.value?,
      skipBlanks_cons rfl]
    cases h with
    | nil => rfl
    | @cons text member texts members hmember hmembers =>
      have hread := members?_intercalate (.cons hmember hmembers) (by simp) rest fuel (by omega)
      rw [List.map_cons] at hread ⊢
      obtain ⟨tail, htail⟩ := exists_intercalate_cons (Writer.member text.1 text.2)
        (texts.map fun m => Writer.member m.1 m.2)
      rw [htail, Writer.member, Writer.string, List.cons_append, List.cons_append,
        List.cons_append] at hread ⊢
      generalize text.1.toList.flatMap Writer.escape ++ ['\x22'] ++ ':' :: text.2 ++ tail ++
        '\x7d' :: rest = following at hread
      simp [skipBlanks_cons (show isBlank '\x22' = false by rfl), hread]

end RegressionScript.Json.Reader

namespace RegressionScript.Json

theorem parse?_of_reads {cs : List Char} {j : Json} (h : Reader.Reads cs j) :
    parse? (String.ofList cs) = some j := by
  have hread := h.value? (show cs.length ≤ 2 * cs.length + 2 by omega)
    (show Reader.Ends [] by simp [Reader.Ends])
  rw [List.append_nil] at hread
  rw [parse?, String.toList_ofList]
  simp [hread, Reader.skipBlanks]

/-- Texts of floating-point numbers: whatever its digits are, a finite number is the nearest one to
its text, and the text of any other number is null. -/
def Spelling (number : Float → List Char) : Prop :=
  ∀ v, ∃ j, Reader.Reads (number v) j ∧ j.Holds v

theorem spelling_float : Spelling Writer.float :=
  fun v => ⟨ofFloat v, Reader.reads_float v, holds_ofFloat v⟩

end RegressionScript.Json
