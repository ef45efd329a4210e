import Mathlib.Data.List.Induction
import Mathlib.Data.List.TakeWhile
import RegressionScript.Program.Basic

/-!
# Programs that define before they call

In a well-defined program no name is defined twice and every call goes to a function at an earlier
position. A function is accepted at the end of a program exactly if this stays true, and merging
two such programs fails only at a name that both define. Which programs can be reached is not
asked here.
-/

namespace RegressionScript

set_option autoImplicit false

section Except

variable {ε α β : Type}

@[simp] theorem ok_bind (a : α) (f : α → Except ε β) : (Except.ok a >>= f) = f a := rfl

@[simp] theorem error_bind (e : ε) (f : α → Except ε β) :
    (Except.error e >>= f) = Except.error e := rfl

theorem bind_eq_ok_iff {x : Except ε α} {f : α → Except ε β} {b : β} :
    (x >>= f) = .ok b ↔ ∃ a, x = .ok a ∧ f a = .ok b := by
  cases x with
  | error e => simp
  | ok a => simp

theorem bind_eq_error_iff {x : Except ε α} {f : α → Except ε β} {e : ε} :
    (x >>= f) = .error e ↔ x = .error e ∨ ∃ a, x = .ok a ∧ f a = .error e := by
  cases x with
  | error d => simp
  | ok a => simp

theorem error_of_bind_ok {x : Except ε α} {b : β} {e : ε}
    (h : (x >>= fun _ => Except.ok b) = .error e) : x = .error e := by
  rcases bind_eq_error_iff.mp h with h | ⟨a, -, h⟩
  · exact h
  · cases h

theorem map_eq_error_iff {x : Except ε α} {f : α → β} {e : ε} :
    x.map f = .error e ↔ x = .error e := by
  cases x with
  | error d => simp [Except.map]
  | ok a => simp [Except.map]

end Except

namespace Program

variable {p q r : Program} {f : Function} {fs : List Function}

@[simp] theorem names_mk (fs : List Function) : (mk fs).names = fs.map Function.name := rfl

@[simp] theorem names_empty : empty.names = [] := rfl

theorem names_append (p q : Program) :
    (mk (p.functions ++ q.functions)).names = p.names ++ q.names :=
  List.map_append

theorem names_flatMap (ps : List Program) :
    (mk (ps.flatMap functions)).names = ps.flatMap names := by
  rw [names_mk, List.map_flatMap]
  rfl

theorem defines_iff {name : String} : p.defines name = true ↔ name ∈ p.names := by
  simp [defines, get?, names]

theorem defines_eq_false_iff {name : String} : p.defines name = false ↔ name ∉ p.names := by
  rw [← defines_iff, Bool.not_eq_true]

structure WellDefined (p : Program) : Prop where
  distinct : p.names.Nodup
  earlier : ∀ (k : Nat) (f : Function), p.functions[k]? = some f →
    ∀ c ∈ f.body.callees, ∃ j, j < k ∧ p.names[j]? = some c

theorem wellDefined_empty : empty.WellDefined where
  distinct := List.nodup_nil
  earlier := by
    intro k f hf
    simp [empty] at hf

/-! ## One function more -/

/-- The last function has a name of its own and calls functions before it. -/
theorem wellDefined_concat_iff (fs : List Function) (f : Function) :
    (mk (fs ++ [f])).WellDefined ↔
      (mk fs).WellDefined ∧ f.name ∉ fs.map Function.name ∧
        ∀ c ∈ f.body.callees, c ∈ fs.map Function.name := by
  constructor
  · rintro ⟨hd, he⟩
    simp only [names_mk, List.map_append, List.map_cons, List.map_nil] at hd he
    obtain ⟨hd, -, hne⟩ := List.nodup_append.mp hd
    refine ⟨⟨hd, ?_⟩, ?_, ?_⟩
    · intro k g hg c hc
      have hk : k < fs.length := (List.getElem?_eq_some_iff.mp hg).1
      obtain ⟨j, hj, hcj⟩ := he k g (by rwa [List.getElem?_append_left hk]) c hc
      rw [List.getElem?_append_left (by rw [List.length_map]; omega)] at hcj
      exact ⟨j, hj, hcj⟩
    · intro hmem
      exact hne _ hmem _ (List.mem_singleton_self _) rfl
    · intro c hc
      obtain ⟨j, hj, hcj⟩ := he fs.length f (by simp) c hc
      rw [List.getElem?_append_left (by rwa [List.length_map])] at hcj
      exact List.mem_of_getElem? hcj
  · rintro ⟨⟨hd, he⟩, hn, hc⟩
    constructor
    · rw [names_mk, List.map_append]
      refine List.nodup_append.mpr ⟨hd, by simp, ?_⟩
      intro a ha b hb hab
      rw [List.map_singleton, List.mem_singleton] at hb
      exact hn (hb ▸ hab ▸ ha)
    · intro k g hg c hmem
      simp only [names_mk, List.map_append]
      by_cases hk : k < fs.length
      · rw [List.getElem?_append_left hk] at hg
        obtain ⟨j, hj, hcj⟩ := he k g hg c hmem
        exact ⟨j, hj, by rw [List.getElem?_append_left (by rw [List.length_map]; omega)]; exact hcj⟩
      · -- the last position, from which all of `fs` lies before
        have hkl : k < (fs ++ [f]).length := (List.getElem?_eq_some_iff.mp hg).1
        have hk : k = fs.length := by simp at hkl; omega
        subst k
        obtain rfl : f = g := by simpa using hg
        obtain ⟨j, hj⟩ := List.getElem?_of_mem (hc c hmem)
        have hjl : j < (fs.map Function.name).length := (List.getElem?_eq_some_iff.mp hj).1
        exact ⟨j, by simpa using hjl, by rw [List.getElem?_append_left hjl]; exact hj⟩

theorem push_eq_none_iff :
    p.push f = (q, none) ↔
      f.name ∉ p.names ∧ (∀ c ∈ f.body.callees, c ∈ p.names) ∧ q = ⟨p.functions ++ [f]⟩ := by
  unfold push
  split
  · rename_i hd
    simp [defines_iff.mp hd]
  · rename_i hd
    rw [defines_iff] at hd
    split
    · rename_i c hc
      have hmem := List.mem_of_find?_eq_some hc
      have hnot : c ∉ p.names := by
        have := List.find?_some hc
        rwa [Bool.not_eq_true', defines_eq_false_iff] at this
      constructor
      · intro h
        cases h
      · rintro ⟨-, hall, -⟩
        exact absurd (hall c hmem) hnot
    · rename_i hc
      have hall : ∀ c ∈ f.body.callees, c ∈ p.names := by
        intro c hmem
        have := List.find?_eq_none.mp hc c hmem
        simpa [defines_iff] using this
      constructor
      · intro h
        exact ⟨hd, hall, (Prod.mk.inj h).1.symm⟩
      · rintro ⟨-, -, rfl⟩
        rfl

theorem push_of_mem (h : f.name ∈ p.names) : p.push f = (p, some (.redefined f.name)) := by
  rw [push, if_pos (defines_iff.mpr h)]

/-- A program that refuses a function stays as it is. -/
theorem eq_of_push_eq_some {e : DefinitionError} (h : p.push f = (q, some e)) : q = p := by
  unfold push at h
  split at h
  · exact (Prod.mk.inj h).1.symm
  · split at h
    · exact (Prod.mk.inj h).1.symm
    · cases h

theorem push_wellDefined (hp : p.WellDefined) {e : Option DefinitionError}
    (h : p.push f = (q, e)) : q.WellDefined := by
  cases e with
  | some e => exact eq_of_push_eq_some h ▸ hp
  | none =>
    obtain ⟨hn, hc, rfl⟩ := push_eq_none_iff.mp h
    exact (wellDefined_concat_iff p.functions f).mpr ⟨hp, hn, hc⟩

theorem accepted_eq_ok_iff {x : Program × Option DefinitionError} :
    accepted x = .ok p ↔ x = (p, none) := by
  obtain ⟨q, e⟩ := x
  cases e with
  | none => simp [accepted]
  | some e => simp [accepted]

/-! ## Functions one by one -/

theorem pushAll_append (p : Program) (fs gs : List Function) :
    p.pushAll (fs ++ gs) =
      match p.pushAll fs with
      | (q, none) => q.pushAll gs
      | (q, some e) => (q, some e) := by
  induction fs generalizing p with
  | nil => rfl
  | cons f fs ih =>
    simp only [List.cons_append, pushAll]
    rcases p.push f with ⟨q, _ | e⟩
    · exact ih q
    · rfl

/-- Also the part that was added before a failure is well-defined. -/
theorem pushAll_wellDefined (hp : p.WellDefined) (fs : List Function) :
    (p.pushAll fs).1.WellDefined := by
  induction fs generalizing p with
  | nil => exact hp
  | cons f fs ih =>
    simp only [pushAll]
    rcases h : p.push f with ⟨q, _ | e⟩
    · exact ih (push_wellDefined hp h)
    · exact push_wellDefined hp h

/-- Functions that are all accepted are accepted one after another. -/
theorem foldlM_push_eq_ok_iff (p : Program) (fs : List Function) :
    fs.foldlM (fun q f => accepted (q.push f)) p = .ok r ↔ p.pushAll fs = (r, none) := by
  induction fs generalizing p with
  | nil => simp [pushAll, pure, Except.pure]
  | cons f fs ih =>
    simp only [List.foldlM_cons, pushAll]
    rcases p.push f with ⟨q, _ | e⟩
    · exact ih q
    · simp [accepted]

/-- A well-defined program can be put together again, function by function. -/
theorem pushAll_empty_eq (h : (mk fs).WellDefined) : empty.pushAll fs = (⟨fs⟩, none) := by
  induction fs using List.reverseRecOn with
  | nil => rfl
  | append_singleton fs f ih =>
    obtain ⟨hfs, hn, hc⟩ := (wellDefined_concat_iff fs f).mp h
    have hpush : (mk fs).push f = (⟨fs ++ [f]⟩, none) := push_eq_none_iff.mpr ⟨hn, hc, rfl⟩
    rw [pushAll_append, ih hfs]
    simp [pushAll, hpush]

/-! ## The scan for calls -/

theorem orderedFrom_append (known : List String) (fs gs : List Function) :
    orderedFrom known (fs ++ gs) =
      (orderedFrom known fs && orderedFrom ((fs.map Function.name).reverse ++ known) gs) := by
  induction fs generalizing known with
  | nil => rfl
  | cons f fs ih => simp [orderedFrom, ih, Bool.and_assoc]

/-- The scan of the whole list and the order of positions say the same. -/
theorem wellDefined_iff : p.WellDefined ↔ p.names.Nodup ∧ p.isOrdered = true := by
  obtain ⟨fs⟩ := p
  unfold isOrdered
  induction fs using List.reverseRecOn with
  | nil => exact ⟨fun h => ⟨h.distinct, rfl⟩, fun _ => wellDefined_empty⟩
  | append_singleton fs f ih =>
    rw [wellDefined_concat_iff, ih, orderedFrom_append]
    simp only [names_mk, List.map_append, List.nodup_append, Bool.and_eq_true, orderedFrom,
      List.map_cons, List.map_nil, List.append_nil, List.all_eq_true, List.contains_iff_mem,
      List.mem_reverse, List.mem_singleton]
    constructor
    · rintro ⟨⟨hd, ho⟩, hn, hc⟩
      exact ⟨⟨hd, by simp, fun a ha b hb hab => hn (hb ▸ hab ▸ ha)⟩, ho, hc, trivial⟩
    · rintro ⟨⟨hd, -, hne⟩, ho, hc, -⟩
      exact ⟨⟨hd, ho⟩, fun hmem => hne _ hmem _ rfl rfl, hc⟩

/-! ## Merging -/

/-- What stops a merge is the first name that is already there, and what comes before it stays. -/
theorem extend_eq (p : Program) (hq : q.WellDefined) :
    p.extend q =
      match q.functions.find? fun f => p.defines f.name with
      | none => (⟨p.functions ++ q.functions⟩, none)
      | some f =>
        (⟨p.functions ++ q.functions.takeWhile fun f => !p.defines f.name⟩,
          some (.redefined f.name)) := by
  obtain ⟨fs⟩ := q
  unfold extend
  induction fs using List.reverseRecOn with
  | nil => simp [pushAll]
  | append_singleton fs f ih =>
    obtain ⟨hfs, hn, hc⟩ := (wellDefined_concat_iff fs f).mp hq
    rw [pushAll_append, ih hfs, List.find?_append]
    cases hfind : fs.find? fun f => p.defines f.name with
    | some g =>
      -- the merge has stopped inside `fs`, so that `f` is not looked at
      have hstop : (fs.takeWhile fun f => !p.defines f.name).length ≠ fs.length := by
        intro hlen
        have hall := List.takeWhile_eq_self_iff.mp ((List.takeWhile_prefix _).eq_of_length hlen)
        have hg := hall g (List.mem_of_find?_eq_some hfind)
        simp [List.find?_some hfind] at hg
      simp only [Option.some_or]
      rw [List.takeWhile_append, if_neg hstop]
    | none =>
      have hnew : ∀ g ∈ fs, p.defines g.name = false := by
        intro g hg
        simpa using List.find?_eq_none.mp hfind g hg
      have hkeep : (fs.takeWhile fun f => !p.defines f.name) = fs :=
        List.takeWhile_eq_self_iff.mpr fun g hg => by simp [hnew g hg]
      cases hdef : p.defines f.name with
      | true =>
        have hpush : (mk (p.functions ++ fs)).push f =
            (⟨p.functions ++ fs⟩, some (.redefined f.name)) := by
          apply push_of_mem
          rw [names_mk, List.map_append]
          exact List.mem_append_left _ (defines_iff.mp hdef)
        simp [pushAll, hpush, hdef, List.takeWhile_append, hkeep]
      | false =>
        have hpush : (mk (p.functions ++ fs)).push f = (⟨p.functions ++ (fs ++ [f])⟩, none) := by
          refine push_eq_none_iff.mpr ⟨?_, ?_, by rw [List.append_assoc]⟩
          · rw [names_mk, List.map_append, List.mem_append]
            exact not_or_intro (defines_eq_false_iff.mp hdef) hn
          · intro c hmem
            rw [names_mk, List.map_append]
            exact List.mem_append_right _ (hc c hmem)
        simp [pushAll, hpush, hdef]

theorem append_eq_ok_iff (hp : p.names.Nodup) (hq : q.WellDefined) :
    p.append q = .ok r ↔ (p.names ++ q.names).Nodup ∧ r = ⟨p.functions ++ q.functions⟩ := by
  rw [append, extend_eq p hq]
  cases hfind : q.functions.find? fun f => p.defines f.name with
  | some f =>
    have hf : f.name ∈ q.names := List.mem_map_of_mem (List.mem_of_find?_eq_some hfind)
    have hdef := List.find?_some hfind
    constructor
    · intro h
      cases h
    · rintro ⟨hnd, -⟩
      exact absurd rfl ((List.nodup_append.mp hnd).2.2 _ (defines_iff.mp hdef) _ hf)
  | none =>
    have hnd : (p.names ++ q.names).Nodup := by
      refine List.nodup_append.mpr ⟨hp, hq.distinct, ?_⟩
      rintro a ha b hb rfl
      obtain ⟨f, hf, rfl⟩ := List.mem_map.mp hb
      have := List.find?_eq_none.mp hfind f hf
      exact this (defines_iff.mpr ha)
    simp [hnd, accepted, eq_comm]

theorem append_wellDefined (hp : p.WellDefined) (h : p.append q = .ok r) : r.WellDefined := by
  have hr := pushAll_wellDefined hp q.functions
  rwa [← extend, accepted_eq_ok_iff.mp h] at hr

/-- Merging any number of programs succeeds exactly if no name is defined twice in all of them. -/
theorem foldlM_append_eq_ok_iff {ps : List Program} (hp : p.names.Nodup)
    (hps : ∀ q ∈ ps, q.WellDefined) :
    ps.foldlM append p = .ok r ↔
      (p.names ++ ps.flatMap names).Nodup ∧ r = ⟨p.functions ++ ps.flatMap functions⟩ := by
  induction ps generalizing p with
  | nil => simp [pure, Except.pure, hp, eq_comm]
  | cons q ps ih =>
    have hq := hps q List.mem_cons_self
    have hs := names_append p q
    have hrest := fun hnd => ih (p := ⟨p.functions ++ q.functions⟩) (hs ▸ hnd)
      fun t ht => hps t (List.mem_cons_of_mem q ht)
    rw [List.foldlM_cons, bind_eq_ok_iff, List.flatMap_cons, List.flatMap_cons,
      ← List.append_assoc, ← List.append_assoc]
    constructor
    · rintro ⟨s, happ, h⟩
      obtain ⟨hnd, rfl⟩ := (append_eq_ok_iff hp hq).mp happ
      exact hs ▸ (hrest hnd).mp h
    · intro h
      have hnd := (List.nodup_append.mp h.1).1
      exact ⟨_, (append_eq_ok_iff hp hq).mpr ⟨hnd, rfl⟩, (hrest hnd).mpr (hs ▸ h)⟩

theorem foldlM_append_wellDefined {ps : List Program} (hp : p.WellDefined)
    (h : ps.foldlM append p = .ok r) : r.WellDefined := by
  induction ps generalizing p with
  | nil =>
    cases h
    exact hp
  | cons q ps ih =>
    rw [List.foldlM_cons] at h
    obtain ⟨s, happ, h⟩ := bind_eq_ok_iff.mp h
    exact ih (append_wellDefined hp happ) h

end Program

end RegressionScript
