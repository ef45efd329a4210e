import Mathlib
import RegressionScript.Proofs.ExprText
import RegressionScript.Proofs.Spacing

/-!
# Lines of a body

Filling cuts the units into groups, one for each line. A line of several units fits, and the first
unit of the next line would not have fitted on it as well. So the lines between the header of a
function and its end hold its units whole and in order, and only a line with a single unit can be
too long.
-/

namespace RegressionScript

set_option autoImplicit false

namespace Fill

/-! ## Groups of units -/

/-- The line of a group of units. -/
def line (group : List (List Char)) : List Char :=
  List.intercalate [' '] group

theorem line_singleton (unit : List Char) : line [unit] = unit :=
  List.intercalate_singleton

theorem line_cons (unit : List Char) (group : List (List Char)) :
    line (unit :: group) = unit ++ group.flatMap (' ' :: ·) :=
  Signs.intercalate_cons_eq_flatMap [' '] unit group

theorem line_concat {group : List (List Char)} (h : group ≠ []) (unit : List Char) :
    line (group ++ [unit]) = line group ++ ' ' :: unit := by
  obtain ⟨first, group, rfl⟩ := List.exists_cons_of_ne_nil h
  rw [List.cons_append, line_cons, line_cons, List.flatMap_append, List.flatMap_singleton,
    List.append_assoc]

theorem line_ne_nil {group : List (List Char)} (h : group ≠ []) (hunits : ∀ u ∈ group, u ≠ []) :
    line group ≠ [] := by
  obtain ⟨first, group, rfl⟩ := List.exists_cons_of_ne_nil h
  rw [line_cons]
  exact List.append_ne_nil_of_left_ne_nil (hunits first List.mem_cons_self) _

/-- A cut of the units into lines, as many units on each line as fit. -/
structure Packs (width : Nat) (units : List (List Char)) (groups : List (List (List Char))) :
    Prop where
  flatten : groups.flatten = units
  nonempty : [] ∉ groups
  fits : ∀ g ∈ groups, 2 ≤ g.length → (line g).length ≤ width
  full : groups.IsChain fun g h => ∀ unit ∈ h.head?, width < (line g).length + 1 + unit.length

variable {width : Nat} {units group : List (List Char)} {groups : List (List (List Char))}

theorem packs_singleton (h : group ≠ []) (hfits : 2 ≤ group.length → (line group).length ≤ width) :
    Packs width group [group] where
  flatten := List.flatten_singleton
  nonempty hmem := h (List.mem_singleton.mp hmem).symm
  fits g hg := by
    rw [List.mem_singleton.mp hg]
    exact hfits
  full := List.isChain_singleton _

/-- A line before the others, on which their first unit has no room. -/
theorem Packs.cons {unit : List Char} {more : List (List Char)}
    (h : Packs width units ((unit :: more) :: groups)) (hgroup : group ≠ [])
    (hfits : 2 ≤ group.length → (line group).length ≤ width)
    (hfull : width < (line group).length + 1 + unit.length) :
    Packs width (group ++ units) (group :: (unit :: more) :: groups) where
  flatten := by rw [List.flatten_cons, h.flatten]
  nonempty hmem := by
    rcases List.mem_cons.mp hmem with hnil | hmem
    · exact hgroup hnil.symm
    · exact h.nonempty hmem
  fits := by
    rw [List.forall_mem_cons]
    exact ⟨hfits, h.fits⟩
  full := by
    rw [List.isChain_cons_cons]
    refine ⟨fun u hu => ?_, h.full⟩
    cases hu
    exact hfull

/-- Filling goes on with the group that has been begun. -/
theorem exists_packs_fillFrom (width : Nat) (hunits : ∀ u ∈ units, u ≠ []) (hgroup : group ≠ [])
    (hne : ∀ u ∈ group, u ≠ []) (hfits : 2 ≤ group.length → (line group).length ≤ width) :
    ∃ more groups, fillFrom width (line group) units = ((group ++ more) :: groups).map line ∧
      Packs width (group ++ units) ((group ++ more) :: groups) := by
  induction units generalizing group with
  | nil =>
    refine ⟨[], [], ?_, ?_⟩
    · rw [fillFrom, if_neg (line_ne_nil hgroup hne), List.append_nil, List.map_singleton]
    · rw [List.append_nil]
      exact packs_singleton hgroup hfits
  | cons unit units ih =>
    rw [List.forall_mem_cons] at hunits
    rw [fillFrom, if_neg (line_ne_nil hgroup hne)]
    split
    · rename_i hfit
      have hunit : ∀ u ∈ group ++ [unit], u ≠ [] := by
        rw [List.forall_mem_append, List.forall_mem_singleton]
        exact ⟨hne, hunits.1⟩
      have hlength : (line (group ++ [unit])).length ≤ width := by
        rw [line_concat hgroup, List.length_append, List.length_cons]
        omega
      obtain ⟨more, groups, hfill, hpacks⟩ :=
        ih hunits.2 (List.concat_ne_nil unit group) hunit fun _ => hlength
      rw [line_concat hgroup] at hfill
      rw [List.append_assoc, List.singleton_append] at hfill hpacks
      rw [List.append_assoc, List.singleton_append] at hpacks
      exact ⟨unit :: more, groups, hfill, hpacks⟩
    · rename_i hfull
      obtain ⟨more, groups, hfill, hpacks⟩ :=
        ih hunits.2 (List.cons_ne_nil unit []) (List.forall_mem_singleton.mpr hunits.1) (by simp)
      rw [line_singleton] at hfill
      refine ⟨[], ([unit] ++ more) :: groups, ?_, ?_⟩
      · rw [hfill, List.append_nil]
        rfl
      · rw [List.append_nil]
        exact hpacks.cons hgroup hfits (by omega)

/-- The lines of non-empty units are those of a cut that packs them. -/
theorem exists_packs (width : Nat) (hunits : ∀ u ∈ units, u ≠ []) :
    ∃ groups, fill width units = groups.map line ∧ Packs width units groups := by
  cases units with
  | nil => exact ⟨[], rfl, rfl, List.not_mem_nil, by simp, List.isChain_nil⟩
  | cons unit units =>
    rw [List.forall_mem_cons] at hunits
    obtain ⟨more, groups, hfill, hpacks⟩ := exists_packs_fillFrom width hunits.2
      (List.cons_ne_nil unit []) (List.forall_mem_singleton.mpr hunits.1) (by simp)
    rw [line_singleton] at hfill
    refine ⟨_, ?_, hpacks⟩
    rw [fill, fillFrom, if_pos rfl, hfill]

end Fill

/-! ## Line breaks -/

theorem Words.mem_splitFrom {word cs w : List Char} (hword : ∀ c ∈ word, isBlank c = false)
    (h : w ∈ splitFrom word cs) : w ≠ [] ∧ ∀ c ∈ w, isBlank c = false := by
  have hnil {word : List Char} (hword : ∀ c ∈ word, isBlank c = false)
      (h : w ∈ splitFrom word []) : w ≠ [] ∧ ∀ c ∈ w, isBlank c = false := by
    cases word with
    | nil => cases h
    | cons c word =>
      obtain rfl := List.mem_singleton.mp h
      exact ⟨List.reverse_ne_nil_iff.mpr (List.cons_ne_nil c word),
        fun d hd => hword d (List.mem_reverse.mp hd)⟩
  induction cs generalizing word with
  | nil => exact hnil hword h
  | cons c cs ih =>
    rw [splitFrom_cons] at h
    split at h
    · rcases List.mem_append.mp h with h | h
      · exact hnil hword h
      · exact ih (by simp) h
    · rename_i hc
      refine ih ?_ h
      rw [List.forall_mem_cons]
      exact ⟨Bool.eq_false_of_not_eq_true hc, hword⟩

/-- A word has characters, and none of them is blank. -/
theorem Words.mem_split {cs w : List Char} (h : w ∈ split cs) :
    w ≠ [] ∧ ∀ c ∈ w, isBlank c = false :=
  mem_splitFrom (by simp) h

theorem Signs.Joins.mem_of_mem {sign operator c : Char} {join : List Char → List Char}
    {t : List Char} (h : Joins sign operator join) (hmem : c ∈ join t) :
    c ∈ t ∨ c = operator ∨ c = ' ' := by
  induction t using run_induction sign with
  | nil =>
    rw [h.nil] at hmem
    cases hmem
  | joined cs ih =>
    rw [h.joined, List.mem_cons, List.mem_cons] at hmem
    rcases hmem with hc | hc | hmem
    · exact Or.inr (Or.inl hc)
    · exact Or.inr (Or.inr hc)
    · exact (ih hmem).imp_left fun hcs =>
        List.mem_cons_of_mem _ (List.mem_cons_of_mem _ (List.mem_cons_of_mem _ hcs))
  | kept d cs hd ih =>
    rw [h.kept hd, List.mem_cons] at hmem
    rcases hmem with rfl | hmem
    · exact Or.inl List.mem_cons_self
    · exact (ih hmem).imp_left (List.mem_cons_of_mem d)

theorem Signs.newline_not_mem_joined {t : List Char} (h : '\n' ∉ t) : '\n' ∉ joined t := by
  intro hmem
  rcases joins_joinMinus.mem_of_mem hmem with hmem | hc | hc
  · rcases joins_joinPlus.mem_of_mem hmem with hmem | hc | hc
    · exact h hmem
    · cases hc
    · cases hc
  · cases hc
  · cases hc

theorem Sqf.newline_not_mem_numeral {d : Char} {ds : List Char} (hd : d.isDigit = true)
    (hds : ∀ c ∈ ds, c.isDigit = true) (e : Int) : '\n' ∉ numeral d ds e := by
  obtain ⟨sign, es, hsign, -, hes, htext⟩ := exists_exponentText e
  have hfirst : '\n' ∉ [d] := not_mem_of_isDigit rfl (List.forall_mem_singleton.mpr hd)
  have hplaces : '\n' ∉ ds := not_mem_of_isDigit rfl hds
  have hexponent : '\n' ∉ es := not_mem_of_isDigit rfl hes
  have hplus : '\n' ≠ sign := by
    rcases hsign with rfl | rfl <;> decide
  rw [numeral, htext]
  split <;> simp_all

theorem Literal.newline_not_mem_signText_append (negative : Bool) {cs : List Char}
    (h : '\n' ∉ cs) : '\n' ∉ signText negative ++ cs := by
  cases negative <;> simp [signText, h]

theorem Expr.composed_newline_not_mem : Composed ('\n' ∉ ·) where
  nan := by decide
  infinity negative := Literal.newline_not_mem_signText_append negative (by decide)
  numeral negative _ _ hd hds e :=
    Literal.newline_not_mem_signText_append negative (Sqf.newline_not_mem_numeral hd hds e)
  integer negative n := by
    apply Literal.newline_not_mem_signText_append negative
    exact Sqf.not_mem_of_isDigit rfl Digits.isDigit_of_mem_padded
  symbol := by decide
  operator := by simp
  append ha hb := by
    rw [List.mem_append, not_or]
    exact ⟨ha, hb⟩

theorem Settings.newline_not_mem_indent {s : Settings} (h : s.check = .ok ()) :
    '\n' ∉ s.indent.toList := by
  obtain ⟨-, hblank, -⟩ := check_eq_ok_iff.mp h
  intro hmem
  cases List.all_eq_true.mp hblank '\n' hmem

theorem Fill.newline_not_mem_line {group : List (List Char)} (h : ∀ u ∈ group, '\n' ∉ u) :
    '\n' ∉ line group := by
  cases group with
  | nil => exact List.not_mem_nil
  | cons unit group =>
    rw [List.forall_mem_cons] at h
    rw [line_cons, List.mem_append, not_or]
    refine ⟨h.1, fun hmem => ?_⟩
    obtain ⟨u, hu, hmem⟩ := List.mem_flatMap.mp hmem
    rcases List.mem_cons.mp hmem with hspace | hmem
    · cases hspace
    · exact h.2 u hu hmem

namespace Function

/-! ## Bodies -/

variable {s : Settings} {units : List (List Char)} {groups : List (List (List Char))}

theorem newline_not_mem_exprText (places : Nat) (e : Expr) : '\n' ∉ exprText places e :=
  Signs.newline_not_mem_joined (Expr.composed_newline_not_mem.text places e)

/-- The elements of an array, each with what follows it: a bracket after the last one and a comma
after the others. An array without elements has the bracket alone. -/
def closed (texts : List (List Char)) : List (List Char) :=
  if texts = [] then [[']']]
  else texts.mapIdx fun i t => t ++ [if i + 1 = texts.length then ']' else ',']

theorem closed_singleton (t : List Char) : closed [t] = [t ++ [']']] := by
  simp [closed]

theorem closed_cons_cons (t u : List Char) (ts : List (List Char)) :
    closed (t :: u :: ts) = (t ++ [',']) :: closed (u :: ts) := by
  simp [closed, List.mapIdx_cons]

theorem mem_closed {texts : List (List Char)} {u : List Char} (h : u ∈ closed texts) :
    ∃ t c, (t = [] ∨ t ∈ texts) ∧ (c = ',' ∨ c = ']') ∧ u = t ++ [c] := by
  unfold closed at h
  split at h
  · exact ⟨[], ']', Or.inl rfl, Or.inr rfl, List.mem_singleton.mp h⟩
  · obtain ⟨i, hi, rfl⟩ := List.mem_mapIdx.mp h
    refine ⟨texts[i], _, Or.inr (List.getElem_mem hi), ?_, rfl⟩
    split
    · exact Or.inr rfl
    · exact Or.inl rfl

/-- Only what closes the last element is a bracket. -/
theorem exists_closed_eq (texts : List (List Char)) :
    ∃ init last, closed texts = init ++ [last] ∧ (∀ u ∈ init, u.getLast? = some ',') ∧
      last.getLast? = some ']' := by
  induction texts with
  | nil => exact ⟨[], [']'], rfl, by simp, rfl⟩
  | cons t texts ih =>
    cases texts with
    | nil => exact ⟨[], t ++ [']'], closed_singleton t, by simp, List.getLast?_concat⟩
    | cons u us =>
      obtain ⟨init, last, heq, hinit, hlast⟩ := ih
      refine ⟨(t ++ [',']) :: init, last, ?_, ?_, hlast⟩
      · rw [closed_cons_cons, heq, List.cons_append]
      · rw [List.forall_mem_cons]
        exact ⟨List.getLast?_concat, hinit⟩

theorem vectorUnits_eq_closed (places : Nat) (e : Expr) (es : List Expr) :
    vectorUnits places (e :: es) = closed ((e :: es).map (exprText places)) := by
  induction es generalizing e with
  | nil => rw [vectorUnits, List.map_singleton, closed_singleton]
  | cons f es ih =>
    rw [vectorUnits, ih]
    · simp only [List.map_cons, closed_cons_cons]
    · simp

theorem vectorLines_eq (s : Settings) (es : List Expr) :
    vectorLines s es = Fill.fill s.textWidth (closed (es.map (exprText s.decimalPlaces))) := by
  cases es with
  | nil => rfl
  | cons e es =>
    rw [vectorLines, ← vectorUnits_eq_closed]
    split
    · rename_i hnil
      exact absurd hnil (fill_vectorUnits_ne_nil _ _ e es)
    · rfl

/-- Lines that begin with the indent and hold the units whole and in order. A line that is too long
has a single unit, and only one that stands alone has none. -/
structure LaidOut (s : Settings) (units : List (List Char)) (body : List Char)
    (groups : List (List (List Char))) : Prop where
  lines : body.splitOn '\n' = groups.map fun g => s.indent.toList ++ List.intercalate [' '] g
  flatten : groups.flatten = units
  alone : [] ∈ groups → groups = [[]]
  fits : ∀ g ∈ groups,
    (s.indent.toList ++ List.intercalate [' '] g).length ≤ s.lineLength ∨ g.length = 1

/-- All lines but the last end with a comma, and the last one with a bracket. -/
def EndClosed (lines : List (List Char)) : Prop :=
  (∀ l ∈ lines.dropLast, l.getLast? = some ',') ∧ ∀ l ∈ lines.getLast?, l.getLast? = some ']'

theorem indented_eq_intercalate (indent : List Char) {lines : List (List Char)} (h : lines ≠ []) :
    indented indent lines = List.intercalate ['\n'] (lines.map (indent ++ ·)) := by
  induction lines with
  | nil => exact absurd rfl h
  | cons line lines ih =>
    cases lines with
    | nil => simp [indented]
    | cons next lines =>
      rw [indented_cons _ _ (List.cons_ne_nil next lines), ih (List.cons_ne_nil next lines),
        List.map_cons, List.map_cons, List.map_cons, List.intercalate_cons_cons]
      simp

theorem laidOut_indented (hs : s.check = .ok ()) (hgroups : groups ≠ [])
    (hnewline : ∀ g ∈ groups, ∀ u ∈ g, '\n' ∉ u) (halone : [] ∈ groups → groups = [[]])
    (hfits : ∀ g ∈ groups, (Fill.line g).length ≤ s.textWidth ∨ g.length = 1) :
    LaidOut s groups.flatten (indented s.indent.toList (groups.map Fill.line)) groups where
  lines := by
    have hindent := Settings.newline_not_mem_indent hs
    have hlines : ∀ l ∈ (groups.map Fill.line).map (s.indent.toList ++ ·), '\n' ∉ l := by
      rw [List.forall_mem_map, List.forall_mem_map]
      intro g hg
      rw [List.mem_append, not_or]
      exact ⟨hindent, Fill.newline_not_mem_line (hnewline g hg)⟩
    rw [indented_eq_intercalate _ (by simpa using hgroups),
      List.splitOn_intercalate '\n' hlines (by simpa using hgroups), List.map_map]
    rfl
  flatten := rfl
  alone := halone
  fits g hg := by
    have hwidth := (Settings.check_eq_ok_iff.mp hs).2.2
    refine (hfits g hg).imp_left fun hle => ?_
    rw [Settings.textWidth] at hle
    rw [List.length_append, ← Settings.indentWidth, ← Fill.line]
    omega

theorem laidOut_of_packs (hs : s.check = .ok ()) (hne : units ≠ [])
    (hunits : ∀ u ∈ units, '\n' ∉ u) (hpacks : Fill.Packs s.textWidth units groups) :
    LaidOut s units (indented s.indent.toList (groups.map Fill.line)) groups := by
  obtain ⟨rfl, hnonempty, hfits, -⟩ := hpacks
  apply laidOut_indented hs
  · rintro rfl
    exact hne rfl
  · intro g hg u hu
    exact hunits u (List.mem_flatten.mpr ⟨g, hg, hu⟩)
  · intro hnil
    exact absurd hnil hnonempty
  · intro g hg
    have hlength : g.length ≠ 0 := by
      rw [ne_eq, List.length_eq_zero_iff]
      rintro rfl
      exact hnonempty hg
    by_cases hone : g.length = 1
    · exact Or.inr hone
    · exact Or.inl (hfits g hg (by omega))

/-- Where a body has no units, the indent stands alone. -/
theorem laidOut_nil (hs : s.check = .ok ()) :
    LaidOut s [] (indented s.indent.toList []) [[]] := by
  exact laidOut_indented hs (List.cons_ne_nil [] []) (by simp) (fun _ => rfl) (by simp [Fill.line])

theorem getLast?_append_line {u : List Char} (hu : u ≠ []) (indent : List Char)
    (g : List (List Char)) : (indent ++ Fill.line (g ++ [u])).getLast? = u.getLast? := by
  by_cases hg : g = []
  · rw [hg, List.nil_append, Fill.line_singleton, List.getLast?_append_of_ne_nil _ hu]
  · rw [Fill.line_concat hg, ← List.singleton_append, ← List.append_assoc, ← List.append_assoc,
      List.getLast?_append_of_ne_nil _ hu]

theorem LaidOut.endClosed {texts : List (List Char)} {body : List Char}
    (h : LaidOut s (closed texts) body groups) : EndClosed (body.splitOn '\n') := by
  obtain ⟨init, last, hclosed, hinit, hlast⟩ := exists_closed_eq texts
  have hflatten : groups.flatten = init ++ [last] := h.flatten.trans hclosed
  have hnonempty : [] ∉ groups := by
    intro hnil
    rw [h.alone hnil] at hflatten
    simp at hflatten
  have hend {g : List (List Char)} {u : List Char} {c : Char} (hu : u.getLast? = some c) :
      (s.indent.toList ++ Fill.line (g ++ [u])).getLast? = some c := by
    rw [getLast?_append_line _ _ _, hu]
    rintro rfl
    cases hu
  -- the last unit closes the last line, and the units before it close the other lines
  obtain ⟨before, group, rfl⟩ := (List.eq_nil_or_concat' groups).resolve_left <| by
    rintro rfl
    simp at hflatten
  obtain ⟨most, unit, rfl⟩ := (List.eq_nil_or_concat' group).resolve_left <| by
    rintro rfl
    simp at hnonempty
  rw [List.flatten_append, List.flatten_singleton, ← List.append_assoc,
    List.append_singleton_inj] at hflatten
  obtain ⟨rfl, rfl⟩ := hflatten
  rw [EndClosed, h.lines, List.map_append, List.map_singleton, List.dropLast_concat,
    List.getLast?_concat]
  constructor
  · rw [List.forall_mem_map]
    intro g hg
    obtain ⟨most', unit', rfl⟩ := (List.eq_nil_or_concat' g).resolve_left <| by
      rintro rfl
      exact hnonempty (List.mem_append_left _ hg)
    apply hend
    apply hinit
    exact List.mem_append_left _ (List.mem_flatten.mpr ⟨_, hg, by simp⟩)
  · intro l hl
    cases hl
    exact hend hlast

/-- Lines that are filled with units are laid out, whatever the units are made of. -/
theorem exists_laidOut (hs : s.check = .ok ()) (hunits : ∀ u ∈ units, u ≠ [] ∧ '\n' ∉ u) :
    ∃ groups, LaidOut s units (indented s.indent.toList (Fill.fill s.textWidth units)) groups := by
  by_cases hne : units = []
  · rw [hne]
    exact ⟨[[]], laidOut_nil hs⟩
  · obtain ⟨groups, hfill, hpacks⟩ := Fill.exists_packs s.textWidth fun u hu => (hunits u hu).1
    rw [hfill]
    exact ⟨groups, laidOut_of_packs hs hne (fun u hu => (hunits u hu).2) hpacks⟩

theorem mem_closed_exprText (places : Nat) (es : List Expr) :
    ∀ u ∈ closed (es.map (exprText places)), u ≠ [] ∧ '\n' ∉ u := by
  intro u hu
  obtain ⟨t, c, ht, hc, rfl⟩ := mem_closed hu
  have htext : '\n' ∉ t := by
    rcases ht with rfl | ht
    · exact List.not_mem_nil
    · obtain ⟨e, -, rfl⟩ := List.mem_map.mp ht
      exact newline_not_mem_exprText places e
  have hclose : '\n' ∉ [c] := by
    rcases hc with rfl | rfl <;> decide
  refine ⟨List.concat_ne_nil c t, ?_⟩
  rw [List.mem_append, not_or]
  exact ⟨htext, hclose⟩

theorem mem_split_exprText (places : Nat) (e : Expr) :
    ∀ u ∈ Words.split (exprText places e), u ≠ [] ∧ '\n' ∉ u := by
  intro u hu
  obtain ⟨hne, hblank⟩ := Words.mem_split hu
  refine ⟨hne, fun hmem => ?_⟩
  cases hblank '\n' hmem

/-- Between the header of a function and its end stand lines that hold its units whole: the elements
of an array with what closes them, or the words of an expression. -/
theorem lines_hold_whole_units (hs : s.check = .ok ()) (name : String) :
    (∀ es, ∃ body groups,
      render? s ⟨name, .vector es⟩ =
        some (name ++ " = \x7b[\n" ++ String.ofList body ++ "\n\x7d;\n") ∧
      LaidOut s (closed (es.map (exprText s.decimalPlaces))) body groups ∧
      EndClosed (body.splitOn '\n')) ∧
    ∀ e, ∃ body groups,
      render? s ⟨name, .scalar e⟩ =
        some (name ++ " = \x7b\n" ++ String.ofList body ++ "\n\x7d;\n") ∧
      LaidOut s (Words.split (exprText s.decimalPlaces e)) body groups := by
  have hrender (f : Function) : render? s f = some (String.ofList (f.text s)) := by
    rw [render?, if_pos (isWritable_of_check hs f), render]
  constructor
  · intro es
    obtain ⟨groups, hlaidOut⟩ := exists_laidOut hs (mem_closed_exprText s.decimalPlaces es)
    rw [← vectorLines_eq] at hlaidOut
    refine ⟨_, groups, ?_, hlaidOut, hlaidOut.endClosed⟩
    rw [hrender, text]
    simp only [String.ofList_append, String.ofList_toList]
  · intro e
    obtain ⟨groups, hlaidOut⟩ := exists_laidOut hs (mem_split_exprText s.decimalPlaces e)
    refine ⟨_, groups, ?_, hlaidOut⟩
    rw [hrender, text]
    simp only [String.ofList_append, String.ofList_toList]
    rfl

/-- A unit that is too long for a line, and a body that has no words. -/
theorem lines_of_narrow :
    Model.narrow.check = .ok () ∧
      render? Model.narrow ⟨"f", .vector [.input 0, .int (-1), .int 2]⟩ =
        some "f = \x7b[\n\t(_this#0),\n\t-1, 2]\n\x7d;\n" ∧
      (∃ body groups,
        "f = \x7b[\n\t(_this#0),\n\t-1, 2]\n\x7d;\n" =
          "f" ++ " = \x7b[\n" ++ String.ofList body ++ "\n\x7d;\n" ∧
        LaidOut Model.narrow
          (closed ([.input 0, .int (-1), .int 2].map (exprText Model.narrow.decimalPlaces)))
          body groups ∧
        EndClosed (body.splitOn '\n')) ∧
      render? Model.narrow ⟨"f", .scalar (.sum [])⟩ = some "f = \x7b\n\t\n\x7d;\n" ∧
      ∃ body groups,
        "f = \x7b\n\t\n\x7d;\n" = "f" ++ " = \x7b\n" ++ String.ofList body ++ "\n\x7d;\n" ∧
        LaidOut Model.narrow (Words.split (exprText Model.narrow.decimalPlaces (.sum [])))
          body groups := by
  have hnarrow : Model.narrow.check = .ok () := by decide
  have harray : render? Model.narrow ⟨"f", .vector [.input 0, .int (-1), .int 2]⟩ =
      some "f = \x7b[\n\t(_this#0),\n\t-1, 2]\n\x7d;\n" := by decide +kernel
  have hempty : render? Model.narrow ⟨"f", .scalar (.sum [])⟩ =
      some "f = \x7b\n\t\n\x7d;\n" := by decide +kernel
  obtain ⟨hvector, hscalar⟩ := lines_hold_whole_units hnarrow "f"
  obtain ⟨body, groups, hrender, hlaidOut, hend⟩ := hvector [.input 0, .int (-1), .int 2]
  obtain ⟨body', groups', hrender', hlaidOut'⟩ := hscalar (.sum [])
  rw [harray, Option.some.injEq] at hrender
  rw [hempty, Option.some.injEq] at hrender'
  exact ⟨hnarrow, harray, ⟨body, groups, hrender, hlaidOut, hend⟩, hempty, body', groups', hrender',
    hlaidOut'⟩

end Function

end RegressionScript
