import Mathlib
import RegressionScript.Proofs.Lines

/-!
# Filling is greedy

There is one cut that packs the units, and filling finds it. No other cut whose lines fit has fewer
lines. Filling is stable as well: lines that are filled once more, with any blanks between them,
come out as they were.
-/

namespace RegressionScript

set_option autoImplicit false

namespace Fill

variable {width : Nat} {units group more rest : List (List Char)}
  {groups : List (List (List Char))}

/-! ## The only packing -/

theorem length_line (group : List (List Char)) :
    (line group).length = (group.map (·.length + 1)).sum - 1 := by
  cases group with
  | nil => rfl
  | cons unit group =>
    rw [line_cons, List.length_append, List.length_flatMap, List.map_cons, List.sum_cons]
    simp only [List.length_cons]
    omega

theorem length_line_le_append_left (group more : List (List Char)) :
    (line group).length ≤ (line (group ++ more)).length := by
  rw [length_line, length_line, List.map_append, List.sum_append]
  omega

theorem length_line_le_append_right (group more : List (List Char)) :
    (line more).length ≤ (line (group ++ more)).length := by
  rw [length_line, length_line, List.map_append, List.sum_append]
  omega

theorem fill_cons (width : Nat) (unit : List Char) (units : List (List Char)) :
    fill width (unit :: units) = fillFrom width unit units := by
  rw [fill, fillFrom, if_pos rfl]

theorem fillFrom_of_full {l unit : List Char} (hl : l ≠ [])
    (hfull : width < l.length + 1 + unit.length) (units : List (List Char)) :
    fillFrom width l (unit :: units) = l :: fill width (unit :: units) := by
  rw [fillFrom, if_neg hl, if_neg (Nat.not_le.mpr hfull), fill_cons]

/-- Units that fit on the line with those before them are put there. -/
theorem fillFrom_line_append (hgroup : group ≠ []) (hne : ∀ u ∈ group ++ more, u ≠ [])
    (hfits : more ≠ [] → (line (group ++ more)).length ≤ width) (rest : List (List Char)) :
    fillFrom width (line group) (more ++ rest) = fillFrom width (line (group ++ more)) rest := by
  induction more generalizing group with
  | nil => rw [List.nil_append, List.append_nil]
  | cons unit more ih =>
    have hline : line group ≠ [] :=
      line_ne_nil hgroup fun u hu => hne u (List.mem_append_left _ hu)
    have hsplit : group ++ unit :: more = (group ++ [unit]) ++ more :=
      List.append_cons group unit more
    have hfit : (line group).length + 1 + unit.length ≤ width := by
      have hle := length_line_le_append_left (group ++ [unit]) more
      have hwidth := hfits (List.cons_ne_nil unit more)
      rw [← hsplit, line_concat hgroup, List.length_append, List.length_cons] at hle
      omega
    rw [List.cons_append, fillFrom, if_neg hline, if_pos hfit, ← line_concat hgroup]
    rw [hsplit] at hne hfits ⊢
    exact ih (List.concat_ne_nil unit group) hne fun _ => hfits (List.cons_ne_nil unit more)

theorem fill_append (hgroup : group ≠ []) (hne : ∀ u ∈ group, u ≠ [])
    (hfits : 2 ≤ group.length → (line group).length ≤ width) (rest : List (List Char)) :
    fill width (group ++ rest) = fillFrom width (line group) rest := by
  obtain ⟨unit, more, rfl⟩ := List.exists_cons_of_ne_nil hgroup
  have hmore : more ≠ [] → (line ([unit] ++ more)).length ≤ width := by
    intro hmore
    have hpos := List.length_pos_of_ne_nil hmore
    exact hfits (Nat.succ_le_succ hpos)
  have hfill := fillFrom_line_append (List.cons_ne_nil unit []) hne hmore rest
  rw [line_singleton] at hfill
  rw [List.cons_append, fill_cons]
  exact hfill

/-- A cut of the units into lines that fit, unless they have a single unit. -/
structure Cuts (width : Nat) (units : List (List Char)) (groups : List (List (List Char))) :
    Prop where
  flatten : groups.flatten = units
  nonempty : [] ∉ groups
  fits : ∀ g ∈ groups, 2 ≤ g.length → (line g).length ≤ width

theorem Packs.cuts (h : Packs width units groups) : Cuts width units groups :=
  ⟨h.flatten, h.nonempty, h.fits⟩

theorem Cuts.tail (h : Cuts width units (group :: groups)) : Cuts width groups.flatten groups where
  flatten := rfl
  nonempty hmem := h.nonempty (List.mem_cons_of_mem group hmem)
  fits g hg := h.fits g (List.mem_cons_of_mem group hg)

theorem Packs.tail (h : Packs width units (group :: groups)) :
    Packs width groups.flatten groups where
  flatten := rfl
  nonempty := h.cuts.tail.nonempty
  fits := h.cuts.tail.fits
  full := h.full.tail

/-- Filling runs along every cut that packs the units, so that there is no second one. -/
theorem Packs.fill_eq (h : Packs width units groups) (hunits : ∀ u ∈ units, u ≠ []) :
    fill width units = groups.map line := by
  induction groups generalizing units with
  | nil =>
    rw [← h.flatten]
    rfl
  | cons group groups ih =>
    have hgroup : group ≠ [] := ne_of_mem_of_not_mem List.mem_cons_self h.nonempty
    rw [← h.flatten, List.flatten_cons, List.forall_mem_append] at hunits
    have hline := line_ne_nil hgroup hunits.1
    have hrest := ih h.tail hunits.2
    rw [← h.flatten, List.flatten_cons, List.map_cons, ← hrest,
      fill_append hgroup hunits.1 (h.fits group List.mem_cons_self)]
    cases groups with
    | nil =>
      rw [List.flatten_nil, fillFrom, if_neg hline]
      rfl
    | cons next groups =>
      have hnext : next ≠ [] := ne_of_mem_of_not_mem List.mem_cons_self h.tail.nonempty
      obtain ⟨unit, next, rfl⟩ := List.exists_cons_of_ne_nil hnext
      have hfull := (List.isChain_cons_cons.mp h.full).1 unit rfl
      rw [List.flatten_cons, List.cons_append]
      exact fillFrom_of_full hline hfull _

theorem toList_ne_nil_of_mem_map {units : List String} (h : ∀ u ∈ units, u ≠ "") :
    ∀ u ∈ units.map String.toList, u ≠ [] := by
  rw [List.forall_mem_map]
  intro u hu hnil
  exact h u hu (String.toList_eq_nil_iff.mp hnil)

theorem map_toList_map_ofList (lines : List (List Char)) :
    (lines.map String.ofList).map String.toList = lines := by
  simp [Function.comp_def]

/-- Lines are those of the units exactly if a cut that packs the units has them. -/
theorem unitLines_eq_iff_packs (units lines : List String) (width : Nat)
    (hunits : ∀ u ∈ units, u ≠ "") :
    unitLines units width = lines ↔
      ∃ groups, Packs width (units.map String.toList) groups ∧
        lines.map String.toList = groups.map line := by
  have hne := toList_ne_nil_of_mem_map hunits
  have hinj : Function.Injective (List.map String.toList) :=
    List.map_injective_iff.mpr fun _ _ => String.toList_inj.mp
  rw [← hinj.eq_iff, unitLines, map_toList_map_ofList]
  constructor
  · intro hlines
    obtain ⟨groups, hfill, hpacks⟩ := exists_packs width hne
    exact ⟨groups, hpacks, hlines.symm.trans hfill⟩
  · rintro ⟨groups, hpacks, hlines⟩
    rw [hlines, hpacks.fill_eq hne]

/-- A unit with spaces inside, and one that is longer than a line. -/
theorem unitLines_packs_overlong :
    (∀ u ∈ ["a b", "c", "(_this#0)^2", "d"], u ≠ "") ∧
      ∃ groups, Packs 5 (["a b", "c", "(_this#0)^2", "d"].map String.toList) groups ∧
        ["a b c", "(_this#0)^2", "d"].map String.toList = groups.map line := by
  have hunits : ∀ u ∈ ["a b", "c", "(_this#0)^2", "d"], u ≠ "" := by decide
  have hlines : unitLines ["a b", "c", "(_this#0)^2", "d"] 5 = ["a b c", "(_this#0)^2", "d"] := by
    decide
  exact ⟨hunits, (unitLines_eq_iff_packs _ _ 5 hunits).mp hlines⟩

/-! ## The fewest lines -/

/-- A line that has been begun is finished, and the units that are left are filled afresh. -/
theorem exists_fillFrom_eq_cons (width : Nat) {l : List Char} (hl : l ≠ [])
    (units : List (List Char)) :
    ∃ l' left, left <:+ units ∧ fillFrom width l units = l' :: fill width left := by
  induction units generalizing l with
  | nil =>
    refine ⟨l, [], List.suffix_refl [], ?_⟩
    rw [fillFrom, if_neg hl]
    rfl
  | cons unit units ih =>
    by_cases hfull : width < l.length + 1 + unit.length
    · exact ⟨l, unit :: units, List.suffix_refl _, fillFrom_of_full hl hfull units⟩
    · have hne : l ++ ' ' :: unit ≠ [] := List.append_ne_nil_of_left_ne_nil hl _
      obtain ⟨l', left, hleft, heq⟩ := ih hne
      refine ⟨l', left, hleft.trans (List.suffix_cons unit units), ?_⟩
      rw [fillFrom, if_neg hl, if_pos (Nat.not_lt.mp hfull), heq]

-- Filling stays ahead of the cut: what is left to fill is a suffix of what is left to cut. So the
-- induction on the groups is about all suffixes of the units.
theorem Cuts.length_fill_le (h : Cuts width units groups) (hunits : ∀ u ∈ units, u ≠ [])
    (hrest : rest <:+ units) : (fill width rest).length ≤ groups.length := by
  induction groups generalizing units rest with
  | nil =>
    rw [← h.flatten, List.flatten_nil, List.suffix_nil] at hrest
    rw [hrest]
    exact Nat.le_refl 0
  | cons group groups ih =>
    rw [← h.flatten, List.flatten_cons] at hunits hrest
    have hlater : ∀ u ∈ groups.flatten, u ≠ [] := fun u hu => hunits u (List.mem_append_right _ hu)
    have hahead {left : List (List Char)} (hleft : left <:+ groups.flatten) :
        (fill width left).length ≤ groups.length := ih h.tail hlater hleft
    rcases List.suffix_or_suffix_of_suffix hrest (List.suffix_append group groups.flatten) with
      hwithin | ⟨last, rfl⟩
    · exact Nat.le_succ_of_le (hahead hwithin)
    · -- the rest begins inside the group, whose last units fit on one line
      obtain ⟨first, hfirst⟩ := hrest
      rw [← List.append_assoc, List.append_left_inj] at hfirst
      obtain rfl | hlast := eq_or_ne last []
      · exact Nat.le_succ_of_le (hahead (List.suffix_refl _))
      · have hne : ∀ u ∈ last, u ≠ [] := by
          intro u hu
          rw [← hfirst] at hunits
          exact hunits u (List.mem_append_left _ (List.mem_append_right _ hu))
        have hfits : 2 ≤ last.length → (line last).length ≤ width := by
          intro htwo
          have hgroup := h.fits group List.mem_cons_self
          rw [← hfirst, List.length_append] at hgroup
          exact (length_line_le_append_right first last).trans (hgroup (by omega))
        obtain ⟨l, left, hleft, heq⟩ :=
          exists_fillFrom_eq_cons width (line_ne_nil hlast hne) groups.flatten
        rw [fill_append hlast hne hfits, heq]
        exact Nat.succ_le_succ (hahead hleft)

/-- No cut into lines that fit has fewer of them. -/
theorem length_unitLines_isLeast (units : List String) (width : Nat)
    (hunits : ∀ u ∈ units, u ≠ "") :
    IsLeast {n | ∃ groups, Cuts width (units.map String.toList) groups ∧ groups.length = n}
      (unitLines units width).length := by
  have hne := toList_ne_nil_of_mem_map hunits
  rw [unitLines, List.length_map]
  constructor
  · obtain ⟨groups, hfill, hpacks⟩ := exists_packs width hne
    refine ⟨groups, hpacks.cuts, ?_⟩
    rw [hfill, List.length_map]
  · rintro n ⟨groups, hcuts, rfl⟩
    exact hcuts.length_fill_le hne (List.suffix_refl _)

/-- The unit that is too long takes a line whatever the cut. -/
theorem three_lines_isLeast :
    (∀ u ∈ ["a b", "c", "(_this#0)^2", "d"], u ≠ "") ∧
      IsLeast {n | ∃ groups,
        Cuts 5 (["a b", "c", "(_this#0)^2", "d"].map String.toList) groups ∧ groups.length = n}
        3 := by
  have hunits : ∀ u ∈ ["a b", "c", "(_this#0)^2", "d"], u ≠ "" := by decide
  have hlength : (unitLines ["a b", "c", "(_this#0)^2", "d"] 5).length = 3 := by decide
  have hleast := length_unitLines_isLeast ["a b", "c", "(_this#0)^2", "d"] 5 hunits
  rw [hlength] at hleast
  exact ⟨hunits, hleast⟩

/-! ## Lines filled again -/

/-- Lines one after another, with `gap i` between the line number `i` and the next. -/
def spaced (gap : Nat → String) : List String → String
  | [] => ""
  | [l] => l
  | l :: ls => l ++ gap 0 ++ spaced (fun i => gap (i + 1)) ls

end Fill

namespace Words

def IsBlankText (s : String) : Prop :=
  ∀ c ∈ s.toList, isBlank c = true

namespace Divides

variable {β : Type} {read : List Char → List β}

theorem append_blank (h : Divides read) (cs : List Char) {s : String} (hs : IsBlankText s) :
    read (cs ++ s.toList) = read cs := by
  rw [IsBlankText] at hs
  cases hchars : s.toList with
  | nil => rw [List.append_nil]
  | cons c blanks =>
    rw [hchars, List.forall_mem_cons] at hs
    have hblanks := h.append_of_blank hs.2 []
    rw [List.append_nil, h.nil] at hblanks
    rw [h.blank _ _ hs.1, hblanks, List.append_nil]

theorem append_gap (h : Divides read) (a b : List Char) {gap : String} (hgap : IsBlankText gap)
    (hne : gap ≠ "") : read (a ++ gap.toList ++ b) = read a ++ read b := by
  rw [IsBlankText] at hgap
  obtain ⟨c, blanks, hchars⟩ :=
    List.exists_cons_of_ne_nil fun hnil => hne (String.toList_eq_nil_iff.mp hnil)
  rw [hchars, List.forall_mem_cons] at hgap
  rw [hchars, List.append_assoc, List.cons_append, h.blank _ _ hgap.1, h.append_of_blank hgap.2]

/-- Gaps between lines add nothing and leave the lines apart. -/
theorem spaced (h : Divides read) {gap : Nat → String}
    (hgap : ∀ i, IsBlankText (gap i) ∧ gap i ≠ "") (lines : List String) :
    read (Fill.spaced gap lines).toList = (lines.map String.toList).flatMap read := by
  induction lines generalizing gap with
  | nil => exact h.nil
  | cons l lines ih =>
    cases lines with
    | nil => simp [Fill.spaced]
    | cons next lines =>
      rw [Fill.spaced, String.toList_append, String.toList_append,
        h.append_gap _ _ (hgap 0).1 (hgap 0).2, ih fun i => hgap (i + 1), ← List.flatMap_cons,
        ← List.map_cons]
      simp

end Divides

end Words

namespace Fill

/-- Filling the lines of a text once more, with whatever blanks around and between them, gives the
same lines. -/
theorem wordLines_spaced (text : String) (width : Nat) (before after : String) (gap : Nat → String)
    (hbefore : Words.IsBlankText before) (hafter : Words.IsBlankText after)
    (hgap : ∀ i, Words.IsBlankText (gap i) ∧ gap i ≠ "") :
    wordLines (before ++ spaced gap (wordLines text width) ++ after) width =
      wordLines text width := by
  have hread := Words.divides_split
  -- all that filling sees of a text are its words
  have hwords : Words.split (before ++ spaced gap (wordLines text width) ++ after).toList =
      Words.split text.toList := by
    rw [String.toList_append, hread.append_blank _ hafter, String.toList_append,
      hread.append_of_blank hbefore, hread.spaced hgap, wordLines, map_toList_map_ofList,
      hread.fillWords]
  rw [wordLines, fillWords, hwords]
  rfl

/-- Blanks of several kinds, and a word that is longer than the line. -/
theorem wordLines_spaced_overlong :
    Words.IsBlankText "\u2028" ∧ Words.IsBlankText "" ∧
      (∀ _ : Nat, Words.IsBlankText "\n\u3000" ∧ "\n\u3000" ≠ "") ∧
      wordLines "a  b (_this#0)^2\tc" 5 = ["a b", "(_this#0)^2", "c"] ∧
      wordLines "\u2028a b\n\u3000(_this#0)^2\n\u3000c" 5 = ["a b", "(_this#0)^2", "c"] := by
  have hbefore : Words.IsBlankText "\u2028" := List.all_eq_true.mp rfl
  have hafter : Words.IsBlankText "" := List.all_eq_true.mp rfl
  have hgap : ∀ _ : Nat, Words.IsBlankText "\n\u3000" ∧ "\n\u3000" ≠ "" :=
    fun _ => ⟨List.all_eq_true.mp rfl, by decide⟩
  have hlines : wordLines "a  b (_this#0)^2\tc" 5 = ["a b", "(_this#0)^2", "c"] := by decide
  have hagain := wordLines_spaced "a  b (_this#0)^2\tc" 5 _ _ (fun _ => _) hbefore hafter hgap
  rw [hlines] at hagain
  exact ⟨hbefore, hafter, hgap, hlines, hagain⟩

end Fill

end RegressionScript
