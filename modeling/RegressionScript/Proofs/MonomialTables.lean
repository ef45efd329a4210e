import Mathlib.Algebra.BigOperators.Group.Finset.Basic
import Mathlib.Data.List.Sort
import Mathlib.Data.Nat.Choose.Sum
import RegressionScript.Model.Monomials

/-!
# Monomials up to a degree

A table of monomials is the only list of its rows in its order. All that is asked of the index
tuples from which it is made is that they are listed in lexicographic order. Counting turns a tuple
that comes earlier into a row that is larger, and every row counts the indices of one tuple.
-/

namespace RegressionScript

set_option autoImplicit false

namespace Monomials

/-! ## Listings of index tuples -/

/-- All tuples of `d` indices below `n` in which `R` holds between each index and those after it, in
lexicographic order. -/
structure Enumerates (R : Nat → Nat → Prop) (tuples : Nat → Nat → List (List Nat)) : Prop where
  mem_iff : ∀ {n d : Nat} {tuple : List Nat}, tuple ∈ tuples n d ↔
    tuple.length = d ∧ tuple.Pairwise R ∧ ∀ i ∈ tuple, i < n
  sorted : ∀ n d : Nat, (tuples n d).Pairwise (· < ·)

theorem nodup_of_sorted {tuples : List (List Nat)} (h : tuples.Pairwise (· < ·)) :
    tuples.Nodup := by
  apply h.imp
  rintro s t hst rfl
  exact List.lt_irrefl s hst

/-- There is only one such listing. -/
theorem Enumerates.unique {R : Nat → Nat → Prop} {f g : Nat → Nat → List (List Nat)}
    (hf : Enumerates R f) (hg : Enumerates R g) : f = g := by
  funext n d
  apply List.Perm.eq_of_pairwise _ (hf.sorted n d) (hg.sorted n d)
  · rw [List.perm_ext_iff_of_nodup (nodup_of_sorted (hf.sorted n d))
      (nodup_of_sorted (hg.sorted n d))]
    intro tuple
    rw [hf.mem_iff, hg.mem_iff]
  · intro s t _ _ hst hts
    exact absurd hts (List.lt_asymm hst)

section Tuples

variable {gap n low d : Nat}

theorem add_mul_length_lt {i : Nat} {rest : List Nat}
    (hgap : (i :: rest).Pairwise fun j k => j + gap ≤ k) (hn : ∀ j ∈ i :: rest, j < n) :
    i + gap * rest.length < n := by
  induction rest generalizing i with
  | nil => simpa using hn
  | cons j rest ih =>
    rw [List.pairwise_cons] at hgap
    have hj := hgap.1 j List.mem_cons_self
    have hrest := ih hgap.2 fun k hk => hn k (List.mem_cons_of_mem i hk)
    rw [List.length_cons, Nat.mul_succ]
    omega

theorem mem_tuplesFrom_iff {tuple : List Nat} :
    tuple ∈ tuplesFrom gap n low d ↔ tuple.length = d ∧
      tuple.Pairwise (fun i j => i + gap ≤ j) ∧ ∀ i ∈ tuple, low ≤ i ∧ i < n := by
  induction d generalizing low tuple with
  | zero =>
    rw [tuplesFrom, List.mem_singleton]
    constructor
    · rintro rfl
      simp
    · rintro ⟨hlength, -⟩
      exact List.eq_nil_of_length_eq_zero hlength
  | succ d ih =>
    simp only [tuplesFrom, List.mem_flatMap, List.mem_range'_1, List.mem_map, ih]
    constructor
    · rintro ⟨i, hi, rest, ⟨hlength, hgap, hrest⟩, rfl⟩
      refine ⟨by rw [List.length_cons, hlength], List.pairwise_cons.mpr ⟨?_, hgap⟩, ?_⟩
      · exact fun j hj => (hrest j hj).1
      · refine List.forall_mem_cons.mpr ⟨by omega, fun j hj => ?_⟩
        have := hrest j hj
        omega
    · rintro ⟨hlength, hgap, hbounds⟩
      cases tuple with
      | nil => cases hlength
      | cons i rest =>
        rw [List.length_cons, Nat.add_right_cancel_iff] at hlength
        have hroom := add_mul_length_lt hgap fun j hj => (hbounds j hj).2
        rw [hlength] at hroom
        rw [List.pairwise_cons] at hgap
        rw [List.forall_mem_cons] at hbounds
        refine ⟨i, by omega, rest, ⟨hlength, hgap.2, ?_⟩, rfl⟩
        exact fun j hj => ⟨hgap.1 j hj, (hbounds.2 j hj).2⟩

theorem pairwise_tuplesFrom : (tuplesFrom gap n low d).Pairwise (· < ·) := by
  induction d generalizing low with
  | zero => exact List.pairwise_singleton _ _
  | succ d ih =>
    rw [tuplesFrom, List.pairwise_flatMap]
    constructor
    · intro i _
      rw [List.pairwise_map]
      exact ih.imp List.cons_lt_cons_self.mpr
    · apply (List.pairwise_lt_range' 1).imp
      intro i j hij s hs t ht
      obtain ⟨s, -, rfl⟩ := List.mem_map.mp hs
      obtain ⟨t, -, rfl⟩ := List.mem_map.mp ht
      exact List.cons_lt_cons_iff.mpr (.inl hij)

theorem enumerates_tuplesFrom (gap : Nat) :
    Enumerates (fun i j => i + gap ≤ j) fun n d => tuplesFrom gap n 0 d where
  mem_iff := by simp [mem_tuplesFrom_iff]
  sorted n d := pairwise_tuplesFrom

theorem enumerates_combinations : Enumerates (· < ·) combinations :=
  enumerates_tuplesFrom 1

theorem enumerates_combinationsWithReplacement : Enumerates (· ≤ ·) combinationsWithReplacement :=
  enumerates_tuplesFrom 0

/-- The tuples that begin with the least index come first. -/
theorem tuplesFrom_succ (h : low < n) :
    tuplesFrom gap n low (d + 1) =
      (tuplesFrom gap n (low + gap) d).map (low :: ·) ++ tuplesFrom gap n (low + 1) (d + 1) := by
  by_cases hroom : low < n - gap * d
  · have hrange : n - gap * d - low = (n - gap * d - (low + 1)) + 1 := by omega
    rw [tuplesFrom, hrange, List.range'_succ, List.flatMap_cons]
    rfl
  · -- there is no room after the least index, nor after any other
    have hnone : n - gap * d - low = 0 := by omega
    have hnone' : n - gap * d - (low + 1) = 0 := by omega
    have hempty : tuplesFrom gap n (low + gap) d = [] := by
      cases d with
      | zero => omega
      | succ d =>
        rw [Nat.mul_succ] at hroom
        have hrest : n - gap * d - (low + gap) = 0 := by omega
        rw [tuplesFrom, hrest]
        rfl
    rw [tuplesFrom, tuplesFrom, hnone, hnone', hempty]
    rfl

theorem tuplesFrom_self (gap n d : Nat) : tuplesFrom gap n n (d + 1) = [] := by
  rw [tuplesFrom, Nat.sub_eq_zero_of_le (Nat.sub_le n _)]
  rfl

theorem length_tuplesFrom_one (k low d : Nat) :
    (tuplesFrom 1 (low + k) low d).length = k.choose d := by
  induction k generalizing low d with
  | zero =>
    cases d with
    | zero => rfl
    | succ d => rw [Nat.add_zero, tuplesFrom_self, Nat.choose_zero_succ, List.length_nil]
  | succ k ih =>
    cases d with
    | zero => rfl
    | succ d =>
      have hn : low + (k + 1) = low + 1 + k := by omega
      rw [tuplesFrom_succ (by omega), List.length_append, List.length_map, hn, ih, ih,
        Nat.choose_succ_succ]

theorem length_tuplesFrom_zero (k low d : Nat) :
    (tuplesFrom 0 (low + k) low d).length = k.multichoose d := by
  induction k generalizing low d with
  | zero =>
    cases d with
    | zero => rw [Nat.multichoose_zero_right, tuplesFrom, List.length_singleton]
    | succ d => rw [Nat.add_zero, tuplesFrom_self, Nat.multichoose_zero_succ, List.length_nil]
  | succ k ih =>
    induction d with
    | zero => rw [Nat.multichoose_zero_right, tuplesFrom, List.length_singleton]
    | succ d ihd =>
      -- the least index may be chosen again
      have hfirst : (tuplesFrom 0 (low + (k + 1)) (low + 0) d).length = (k + 1).multichoose d := ihd
      have hn : low + (k + 1) = low + 1 + k := by omega
      rw [tuplesFrom_succ (by omega), List.length_append, List.length_map, hfirst, hn, ih,
        Nat.multichoose_succ_succ, Nat.add_comm]

theorem length_combinations (n d : Nat) : (combinations n d).length = n.choose d := by
  have hlength := length_tuplesFrom_one n 0 d
  rwa [Nat.zero_add] at hlength

theorem length_combinationsWithReplacement (n d : Nat) :
    (combinationsWithReplacement n d).length = n.multichoose d := by
  have hlength := length_tuplesFrom_zero n 0 d
  rwa [Nat.zero_add] at hlength

end Tuples

/-! ## Rows that count -/

def degree (row : List UInt32) : Nat :=
  (row.map UInt32.toNat).sum

variable {n : Nat} {tuple : List Nat}

theorem getElem?_foldl_modify (tuple : List Nat) (row : List UInt32) (j : Nat) :
    (tuple.foldl (fun row column => row.modify column (· + 1)) row)[j]? =
      row[j]?.map (· + UInt32.ofNat (tuple.count j)) := by
  induction tuple generalizing row with
  | nil => cases h : row[j]? <;> simp [h]
  | cons i tuple ih =>
    rw [List.foldl_cons, ih, List.getElem?_modify, List.count_cons]
    cases row[j]? with
    | none => rfl
    | some e =>
      by_cases hij : i = j
      · simp [hij, UInt32.ofNat_add, UInt32.add_assoc, UInt32.add_comm]
      · simp [hij]

theorem rowOf_eq (n : Nat) (tuple : List Nat) :
    rowOf n tuple = (List.range n).map fun j => UInt32.ofNat (tuple.count j) := by
  apply List.ext_getElem?
  intro j
  rw [rowOf, getElem?_foldl_modify, List.getElem?_map]
  by_cases hj : j < n
  · simp [hj]
  · rw [List.getElem?_eq_none (by simpa using hj), List.getElem?_eq_none (by simpa using hj)]
    rfl

theorem length_rowOf (n : Nat) (tuple : List Nat) : (rowOf n tuple).length = n := by
  rw [rowOf_eq, List.length_map, List.length_range]

theorem toNat_count (h : tuple.length < UInt32.size) (j : Nat) :
    (UInt32.ofNat (tuple.count j)).toNat = tuple.count j :=
  UInt32.toNat_ofNat_of_lt' (List.count_le_length.trans_lt h)

theorem degree_rowOf (h : tuple.length < UInt32.size) (hn : ∀ i ∈ tuple, i < n) :
    degree (rowOf n tuple) = tuple.length := by
  have hcount := Multiset.sum_count_eq_card (s := Finset.range n) (m := (tuple : Multiset Nat))
    fun i hi => Finset.mem_range.mpr (hn i hi)
  simp only [Multiset.coe_count, Multiset.coe_card] at hcount
  rw [degree, rowOf_eq, List.map_map]
  exact (congrArg List.sum (List.map_congr_left fun j _ => toNat_count h j)).trans hcount

/-- Of two ascending tuples, the earlier one has more of the first index that the two do not have
equally often. -/
theorem exists_first_difference {s t : List Nat} (hs : s.Pairwise (· ≤ ·))
    (ht : t.Pairwise (· ≤ ·)) (hlength : s.length = t.length) (hst : s < t) :
    ∃ p ∈ s, (∀ q < p, t.count q = s.count q) ∧ t.count p < s.count p := by
  induction s generalizing t with
  | nil =>
    obtain rfl := List.eq_nil_of_length_eq_zero hlength.symm
    exact absurd hst (List.lt_irrefl [])
  | cons i s ih =>
    cases t with
    | nil => cases hlength
    | cons j t =>
      rw [List.pairwise_cons] at hs ht
      rcases List.cons_lt_cons_iff.mp hst with hij | ⟨rfl, hrest⟩
      · -- the second tuple has no `i`, and neither has a smaller index
        have hnone : ∀ q ≤ i, (j :: t).count q = 0 := by
          intro q hq
          refine List.count_eq_zero.mpr fun hmem => ?_
          rcases List.mem_cons.mp hmem with rfl | hmem
          · omega
          · have := ht.1 q hmem
            omega
        refine ⟨i, List.mem_cons_self, ?_, ?_⟩
        · intro q hq
          rw [hnone q hq.le, eq_comm]
          refine List.count_eq_zero.mpr fun hmem => ?_
          rcases List.mem_cons.mp hmem with rfl | hmem
          · omega
          · have := hs.1 q hmem
            omega
        · rw [hnone i le_rfl]
          exact List.count_pos_iff.mpr List.mem_cons_self
      · obtain ⟨p, hp, hbefore, hlt⟩ := ih hs.2 ht.2 (Nat.succ.inj hlength) hrest
        refine ⟨p, List.mem_cons_of_mem i hp, ?_, ?_⟩
        · intro q hq
          rw [List.count_cons, List.count_cons, hbefore q hq]
        · rw [List.count_cons, List.count_cons]
          omega

theorem map_range_lt {f g : Nat → UInt32} {p : Nat} (hp : p < n) (hbefore : ∀ q < p, f q = g q)
    (hlt : f p < g p) : (List.range n).map f < (List.range n).map g := by
  refine List.lt_iff_exists.mpr (.inr ⟨p, by simpa using hp, by simpa using hp, ?_, ?_⟩)
  · intro q hq
    simpa using hbefore q hq
  · simpa using hlt

/-- Counting turns the order around: the row of the earlier tuple is the larger one. -/
theorem rowOf_lt_rowOf {s t : List Nat} (hs : s.Pairwise (· ≤ ·)) (ht : t.Pairwise (· ≤ ·))
    (hlength : s.length = t.length) (hsize : s.length < UInt32.size) (hn : ∀ i ∈ s, i < n)
    (hst : s < t) : rowOf n t < rowOf n s := by
  obtain ⟨p, hp, hbefore, hlt⟩ := exists_first_difference hs ht hlength hst
  rw [rowOf_eq, rowOf_eq]
  apply map_range_lt (hn p hp)
  · intro q hq
    rw [hbefore q hq]
  · rwa [UInt32.lt_iff_toNat_lt, toNat_count hsize, toNat_count (hlength ▸ hsize)]

/-! ## The tuple of a row -/

/-- Every index from `low` on as often as the row says. -/
def tupleFrom (low : Nat) : List UInt32 → List Nat
  | [] => []
  | e :: row => List.replicate e.toNat low ++ tupleFrom (low + 1) row

theorem bounds_of_mem_tupleFrom {low i : Nat} {row : List UInt32} (h : i ∈ tupleFrom low row) :
    low ≤ i ∧ i < low + row.length := by
  induction row generalizing low with
  | nil => cases h
  | cons e row ih =>
    rw [List.length_cons]
    rcases List.mem_append.mp h with h | h
    · have := List.eq_of_mem_replicate h
      omega
    · have := ih h
      omega

theorem length_tupleFrom (low : Nat) (row : List UInt32) :
    (tupleFrom low row).length = degree row := by
  induction row generalizing low with
  | nil => rfl
  | cons e row ih =>
    rw [tupleFrom, List.length_append, List.length_replicate, ih, degree, degree, List.map_cons,
      List.sum_cons]

theorem pairwise_tupleFrom {strict : Bool} {row : List UInt32}
    (h : strict = true → ∀ e ∈ row, e ≤ 1) (low : Nat) :
    (tupleFrom low row).Pairwise fun i j => i + strict.toNat ≤ j := by
  induction row generalizing low with
  | nil => exact .nil
  | cons e row ih =>
    rw [tupleFrom, List.pairwise_append, List.pairwise_replicate]
    refine ⟨?_, ih (fun hs f hf => h hs f (List.mem_cons_of_mem e hf)) (low + 1), ?_⟩
    · cases strict with
      | false => exact .inr le_rfl
      | true => exact .inl (UInt32.le_iff_toNat_le.mp (h rfl e List.mem_cons_self))
    · intro i hi j hj
      have hi := List.eq_of_mem_replicate hi
      have hj := bounds_of_mem_tupleFrom hj
      have hstrict := strict.toNat_le
      omega

theorem count_tupleFrom (low k : Nat) (row : List UInt32) :
    (tupleFrom low row).count (low + k) = (row[k]?.map UInt32.toNat).getD 0 := by
  induction row generalizing low k with
  | nil => rfl
  | cons e row ih =>
    rw [tupleFrom, List.count_append, List.count_replicate]
    cases k with
    | zero =>
      have hlater : (tupleFrom (low + 1) row).count low = 0 := by
        refine List.count_eq_zero.mpr fun hmem => ?_
        have := bounds_of_mem_tupleFrom hmem
        omega
      simp [hlater]
    | succ k =>
      have hk : low + (k + 1) = low + 1 + k := by omega
      have hne : (low == low + 1 + k) = false := beq_false_of_ne (by omega)
      rw [hk, hne, ih]
      simp

theorem rowOf_tupleFrom (row : List UInt32) : rowOf row.length (tupleFrom 0 row) = row := by
  rw [rowOf_eq]
  apply List.ext_getElem
  · simp
  · intro k _ hk
    have hcount := count_tupleFrom 0 k row
    rw [Nat.zero_add, List.getElem?_eq_getElem hk] at hcount
    simp [hcount]

/-! ## Rows of one degree -/

section Rows

variable {d : Nat} {strict : Bool} {tuples : Nat → Nat → List (List Nat)}

theorem mem_map_rowOf_iff (h : Enumerates (fun i j => i + strict.toNat ≤ j) tuples)
    (hd : d < UInt32.size) {row : List UInt32} :
    row ∈ (tuples n d).map (rowOf n) ↔
      row.length = n ∧ degree row = d ∧ (strict = true → ∀ e ∈ row, e ≤ 1) := by
  rw [List.mem_map]
  constructor
  · rintro ⟨tuple, htuple, rfl⟩
    obtain ⟨rfl, hgap, hn⟩ := h.mem_iff.mp htuple
    refine ⟨length_rowOf n tuple, degree_rowOf hd hn, ?_⟩
    rintro rfl e he
    have hnodup : tuple.Nodup := hgap.imp fun hij => Nat.ne_of_lt hij
    rw [rowOf_eq] at he
    obtain ⟨j, -, rfl⟩ := List.mem_map.mp he
    rw [UInt32.le_iff_toNat_le, toNat_count hd]
    exact List.nodup_iff_count_le_one.mp hnodup j
  · rintro ⟨rfl, rfl, hstrict⟩
    refine ⟨tupleFrom 0 row, h.mem_iff.mpr ⟨length_tupleFrom 0 row, ?_, ?_⟩, rowOf_tupleFrom row⟩
    · exact pairwise_tupleFrom hstrict 0
    · intro i hi
      simpa using (bounds_of_mem_tupleFrom hi).2

theorem pairwise_map_rowOf (h : Enumerates (fun i j => i + strict.toNat ≤ j) tuples)
    (hd : d < UInt32.size) : ((tuples n d).map (rowOf n)).Pairwise fun a b => b < a := by
  rw [List.pairwise_map]
  apply (h.sorted n d).imp_of_mem
  intro s t hs ht hst
  obtain ⟨hs, hsgap, hsn⟩ := h.mem_iff.mp hs
  obtain ⟨ht, htgap, -⟩ := h.mem_iff.mp ht
  apply rowOf_lt_rowOf _ _ (hs.trans ht.symm) (hs ▸ hd) hsn hst
  · exact hsgap.imp fun hij => Nat.le_of_add_right_le hij
  · exact htgap.imp fun hij => Nat.le_of_add_right_le hij

end Rows

/-- Rows of lower degree come first, and of one degree the lexicographically larger. -/
def Before (a b : List UInt32) : Prop :=
  degree a < degree b ∨ degree a = degree b ∧ b < a

theorem Before.irrefl (a : List UInt32) : ¬ Before a a := by
  rintro (h | ⟨-, h⟩)
  · exact Nat.lt_irrefl _ h
  · exact List.lt_irrefl a h

theorem Before.asymm {a b : List UInt32} (hab : Before a b) : ¬ Before b a := by
  rintro (hba | ⟨hdegree, hba⟩)
  · rcases hab with hab | ⟨hdegree, -⟩ <;> omega
  · rcases hab with hab | ⟨-, hab⟩
    · omega
    · exact List.lt_asymm hab hba

theorem degree_replicate_zero (n : Nat) : degree (List.replicate n 0) = 0 := by
  simp [degree]

end Monomials

namespace PolynomialFeatures

open Monomials

/-- The rows that a table of all monomials holds. -/
def IsMonomial (n : Nat) (limit : UInt32) (includeBias interactionOnly : Bool)
    (row : List UInt32) : Prop :=
  row.length = n ∧
    (1 ≤ degree row ∧ degree row ≤ limit.toNat ∨ includeBias = true ∧ row = List.replicate n 0) ∧
    (interactionOnly = true → ∀ e ∈ row, e ≤ 1)

section Generate

variable {combinations withReplacement : Nat → Nat → List (List Nat)} {n : Nat} {limit : UInt32}
  {includeBias interactionOnly : Bool}

/-- Which listing is taken makes no difference. -/
theorem generate_eq_upTo (hc : Enumerates (· < ·) combinations)
    (hr : Enumerates (· ≤ ·) withReplacement) : generate combinations withReplacement = upTo := by
  rw [hc.unique enumerates_combinations, hr.unique enumerates_combinationsWithReplacement]
  rfl

/-- One listing for both kinds of tables. -/
theorem exists_enumerates (hc : Enumerates (· < ·) combinations)
    (hr : Enumerates (· ≤ ·) withReplacement) (interactionOnly : Bool) :
    ∃ tuples, Enumerates (fun i j => i + interactionOnly.toNat ≤ j) tuples ∧
      ∀ n limit includeBias,
        (generate combinations withReplacement n limit includeBias interactionOnly).powers =
          (if includeBias then [List.replicate n 0] else []) ++
            (List.range' 1 limit.toNat).flatMap fun d => (tuples n d).map (rowOf n) := by
  cases interactionOnly with
  | true => exact ⟨combinations, hc, fun _ _ _ => rfl⟩
  | false => exact ⟨withReplacement, hr, fun _ _ _ => rfl⟩

theorem lt_size_of_mem_range' {d : Nat} (h : d ∈ List.range' 1 limit.toNat) : d < UInt32.size := by
  have hd := List.mem_range'_1.mp h
  have hlimit := limit.toNat_lt_size
  omega

theorem mem_bias_iff {row : List UInt32} :
    row ∈ (if includeBias then [List.replicate n 0] else []) ↔
      includeBias = true ∧ row = List.replicate n 0 := by
  cases includeBias <;> simp

theorem mem_powers_generate_iff (hc : Enumerates (· < ·) combinations)
    (hr : Enumerates (· ≤ ·) withReplacement) {row : List UInt32} :
    row ∈ (generate combinations withReplacement n limit includeBias interactionOnly).powers ↔
      IsMonomial n limit includeBias interactionOnly row := by
  obtain ⟨tuples, htuples, hpowers⟩ := exists_enumerates hc hr interactionOnly
  rw [hpowers, List.mem_append, mem_bias_iff, List.mem_flatMap]
  constructor
  · rintro (⟨hb, rfl⟩ | ⟨d, hd, hrow⟩)
    · exact ⟨List.length_replicate, .inr ⟨hb, rfl⟩, by simp⟩
    · obtain ⟨hlength, hdegree, hstrict⟩ :=
        (mem_map_rowOf_iff htuples (lt_size_of_mem_range' hd)).mp hrow
      have hd := List.mem_range'_1.mp hd
      exact ⟨hlength, .inl (by omega), hstrict⟩
  · rintro ⟨hlength, ⟨hlow, hhigh⟩ | hb, hstrict⟩
    · have hd : degree row ∈ List.range' 1 limit.toNat := List.mem_range'_1.mpr (by omega)
      exact .inr ⟨degree row, hd,
        (mem_map_rowOf_iff htuples (lt_size_of_mem_range' hd)).mpr ⟨hlength, rfl, hstrict⟩⟩
    · exact .inl hb

theorem pairwise_powers_generate (hc : Enumerates (· < ·) combinations)
    (hr : Enumerates (· ≤ ·) withReplacement) :
    (generate combinations withReplacement n limit includeBias interactionOnly).powers.Pairwise
      Before := by
  obtain ⟨tuples, htuples, hpowers⟩ := exists_enumerates hc hr interactionOnly
  have hdegree {d : Nat} (hd : d ∈ List.range' 1 limit.toNat) :
      ∀ row ∈ (tuples n d).map (rowOf n), degree row = d := fun row hrow =>
    ((mem_map_rowOf_iff htuples (lt_size_of_mem_range' hd)).mp hrow).2.1
  rw [hpowers, List.pairwise_append, List.pairwise_flatMap]
  refine ⟨by cases includeBias <;> simp, ⟨?_, ?_⟩, ?_⟩
  · intro d hd
    apply (pairwise_map_rowOf htuples (lt_size_of_mem_range' hd)).imp_of_mem
    intro a b ha hb hab
    exact .inr ⟨(hdegree hd a ha).trans (hdegree hd b hb).symm, hab⟩
  · apply (List.pairwise_lt_range' 1).imp_of_mem
    intro d e hd he hde a ha b hb
    left
    rwa [hdegree hd a ha, hdegree he b hb]
  · -- the row of zeros is the only one of degree zero
    intro a ha b hb
    obtain ⟨d, hd, hb⟩ := List.mem_flatMap.mp hb
    rw [(mem_bias_iff.mp ha).2, Before, degree_replicate_zero, hdegree hd b hb]
    exact .inl (List.mem_range'_1.mp hd).1

end Generate

/-- Whatever lists the index tuples in lexicographic order, the table of all monomials is the one
list that has exactly these rows, each once, by ascending degree and in descending order within a
degree. -/
theorem powers_generate_eq_iff {combinations withReplacement : Nat → Nat → List (List Nat)}
    (hc : Enumerates (· < ·) combinations) (hr : Enumerates (· ≤ ·) withReplacement) (n : Nat)
    (limit : UInt32) (includeBias interactionOnly : Bool) (listed : List (List UInt32)) :
    (generate combinations withReplacement n limit includeBias interactionOnly).powers = listed ↔
      (∀ row, row ∈ listed ↔ IsMonomial n limit includeBias interactionOnly row) ∧
        listed.Nodup ∧ listed.Pairwise Before := by
  have hnodup {rows : List (List UInt32)} (h : rows.Pairwise Before) : rows.Nodup := by
    apply h.imp
    rintro a b hab rfl
    exact Before.irrefl a hab
  have hsorted : (generate combinations withReplacement n limit includeBias
      interactionOnly).powers.Pairwise Before := pairwise_powers_generate hc hr
  constructor
  · rintro rfl
    exact ⟨fun row => mem_powers_generate_iff hc hr, hnodup hsorted, hsorted⟩
  · rintro ⟨hmem, hlisted, hpairwise⟩
    apply List.Perm.eq_of_pairwise _ hsorted hpairwise
    · rw [List.perm_ext_iff_of_nodup (hnodup hsorted) hlisted]
      intro row
      rw [mem_powers_generate_iff hc hr, hmem]
    · intro a b _ _ hab hba
      exact absurd hba hab.asymm

theorem powers_upTo_two_two :
    Enumerates (· < ·) Monomials.combinations ∧
      Enumerates (· ≤ ·) Monomials.combinationsWithReplacement ∧
      ∀ row, row ∈ [[0, 0], [1, 0], [0, 1], [2, 0], [1, 1], [0, 2]] ↔
        IsMonomial 2 2 true false row := by
  have hc := enumerates_combinations
  have hr := enumerates_combinationsWithReplacement
  have hpowers : (upTo 2 2 true false).powers =
      [[0, 0], [1, 0], [0, 1], [2, 0], [1, 1], [0, 2]] := by decide
  exact ⟨hc, hr, ((powers_generate_eq_iff hc hr 2 2 true false _).mp hpowers).1⟩

/-! ## Numbers of rows -/

theorem length_powers_generate (combinations withReplacement : Nat → Nat → List (List Nat))
    (n : Nat) (limit : UInt32) (includeBias interactionOnly : Bool) :
    (generate combinations withReplacement n limit includeBias interactionOnly).powers.length =
      (if includeBias then 1 else 0) + ∑ k ∈ Finset.range limit.toNat,
        (if interactionOnly then combinations n (k + 1) else withReplacement n (k + 1)).length := by
  rw [generate, List.length_append, List.length_flatMap, List.range'_eq_map_range, List.map_map]
  congr 1
  · cases includeBias <;> rfl
  · apply congrArg List.sum
    apply List.map_congr_left
    intro k _
    rw [Function.comp_apply, List.length_map, Nat.add_comm]

/-- How many features there are, with and without the constant one, for all monomials and for
interactions only. -/
theorem outputs_generate {combinations withReplacement : Nat → Nat → List (List Nat)}
    (hc : Enumerates (· < ·) combinations) (hr : Enumerates (· ≤ ·) withReplacement) (n : Nat)
    (limit : UInt32) :
    (generate combinations withReplacement n limit true false).outputs =
        (n + limit.toNat).choose limit.toNat ∧
      (generate combinations withReplacement n limit false false).outputs =
        (n + limit.toNat).choose limit.toNat - 1 ∧
      (generate combinations withReplacement n limit true true).outputs =
        ∑ k ∈ Finset.range (limit.toNat + 1), n.choose k ∧
      (generate combinations withReplacement n limit false true).outputs =
        ∑ k ∈ Finset.Icc 1 limit.toNat, n.choose k := by
  have hall : 1 + ∑ k ∈ Finset.range limit.toNat, n.multichoose (k + 1) =
      (n + limit.toNat).choose limit.toNat := by
    rw [← Nat.choose_symm_add, Nat.add_comm n, ← Nat.sum_range_multichoose, Finset.sum_range_succ',
      Nat.multichoose_zero_right, Nat.add_comm]
  have hinteractions : 1 + ∑ k ∈ Finset.range limit.toNat, n.choose (k + 1) =
      ∑ k ∈ Finset.range (limit.toNat + 1), n.choose k := by
    rw [Finset.sum_range_succ', Nat.choose_zero_right, Nat.add_comm]
  have hIcc : ∑ k ∈ Finset.range limit.toNat, n.choose (k + 1) =
      ∑ k ∈ Finset.Icc 1 limit.toNat, n.choose k := by
    rw [Finset.range_eq_Ico, Finset.sum_Ico_add' (fun k => n.choose k) 0 limit.toNat 1]
    rfl
  simp only [generate_eq_upTo hc hr, upTo, outputs, length_powers_generate, if_true,
    Bool.false_eq_true, if_false, length_combinations, length_combinationsWithReplacement]
  refine ⟨hall, ?_, hinteractions, ?_⟩
  · rw [← hall]
    simp
  · simpa using hIcc

theorem outputs_upTo_three_two :
    Enumerates (· < ·) Monomials.combinations ∧
      Enumerates (· ≤ ·) Monomials.combinationsWithReplacement ∧
      (upTo 3 2 true false).outputs = Nat.choose 5 2 ∧
      (upTo 3 2 false true).outputs = ∑ k ∈ Finset.Icc 1 2, Nat.choose 3 k := by
  have hc := enumerates_combinations
  have hr := enumerates_combinationsWithReplacement
  obtain ⟨hbias, -, -, hinteractions⟩ := outputs_generate hc hr 3 2
  exact ⟨hc, hr, hbias, hinteractions⟩

end PolynomialFeatures

end RegressionScript
