import RegressionScript.Program.Basic
import RegressionScript.Proofs.Formulas

/-!
# Definitions read back

The text of a program is read as its functions, in order, if the names and expressions in it can be
read. How its lines are filled makes no difference.
-/

namespace RegressionScript

set_option autoImplicit false

def Body.exprs : Body → List Expr
  | .vector elements => elements
  | .scalar e => [e]
  | .chain _ => []

namespace Sqf

/-- What was read has the value of an expression at all inputs, in exact arithmetic and with every
constant taken for the decimal that is written. This holds whatever a division gives, so the numbers
that are divided agree as well, also where the divisor is zero. -/
def Formula.Says (places : Nat) (f : Formula) (e : Expr) : Prop :=
  ∀ quotient x, f.value quotient x = e.exact quotient (Literal.decimal places) x

/-- A body that was read and a body of a program say the same. -/
def Body.Says (places : Nat) : Sqf.Body → RegressionScript.Body → Prop
  | .array fs, .vector es => List.Forall₂ (Formula.Says places) fs es
  | .value f, .scalar e => f.Says places e
  | .calls names, .chain callees => names = callees
  | _, _ => False

structure Definition.Says (places : Nat) (d : Definition) (f : Function) : Prop where
  name : d.name = f.name
  body : d.body.Says places f.body

variable {ts : List Token} {f : Formula} {s : Settings}

/-- An expression begins neither like an array nor like a call, and an array with elements does not
begin with its end. -/
theorem IsSum.head (h : IsSum ts f) :
    ∃ t rest, ts = t :: rest ∧ t ≠ .symbol '[' ∧ t ≠ .symbol ']' ∧ t ≠ .text "_this" := by
  obtain ⟨p, last, -, hread⟩ := h
  have hsome : operand [] .start (ts ++ [.symbol ']']) = some (p.close last, [.symbol ']']) :=
    hread [] [.symbol ']']
  cases ts with
  | nil => cases hsome
  | cons t rest =>
    refine ⟨t, rest, rfl, ?_, ?_, ?_⟩
    · rintro rfl
      cases hsome
    · rintro rfl
      cases hsome
    · rintro rfl
      have hnone : decimal? "_this" = none := by decide
      have hbind : operand [] .start (.text "_this" :: rest ++ [.symbol ']']) =
          (decimal? "_this" >>= fun m => operator [] .start (.number false m)
            (rest ++ [.symbol ']'])) := rfl
      rw [hbind, hnone] at hsome
      cases hsome

theorem IsSum.body? (h : IsSum ts f) (rest : List Token) :
    Sqf.body? (ts ++ rest) = (Sqf.formula? (ts ++ rest)).map fun r => (.value r.1, r.2) := by
  obtain ⟨t, us, rfl, hopen, -, hthis⟩ := h.head
  rw [List.cons_append]
  unfold Sqf.body?
  split
  · rename_i heq
    exact absurd (List.cons.inj heq).1 hopen
  · rename_i heq
    exact absurd (List.cons.inj heq).1 hthis
  · rfl

theorem IsSum.array? (h : IsSum ts f) (rest : List Token) :
    Sqf.array? (ts ++ rest) = elements? (ts ++ rest).length (ts ++ rest) := by
  obtain ⟨t, us, rfl, -, hclose, -⟩ := h.head
  rw [List.cons_append]
  unfold Sqf.array?
  split
  · rename_i heq
    exact absurd (List.cons.inj heq).1 hclose
  · rfl

/-- The tokens of the elements of an array and of its closing bracket. -/
def elementTokens (places : Nat) (es : List Expr) : List Token :=
  (Function.vectorUnits places es).flatMap lex

theorem elementTokens_single (places : Nat) (e : Expr) :
    elementTokens places [e] = lex (Function.exprText places e) ++ [.symbol ']'] := by
  rw [elementTokens, Function.vectorUnits, List.flatMap_cons, lex_append_cons (by decide),
    List.flatMap_nil, List.append_nil]
  rfl

theorem elementTokens_cons (places : Nat) (e e' : Expr) (es : List Expr) :
    elementTokens places (e :: e' :: es) =
      lex (Function.exprText places e) ++ .symbol ',' :: elementTokens places (e' :: es) := by
  rw [elementTokens, Function.vectorUnits, List.flatMap_cons, lex_append_cons (by decide),
    List.append_assoc]
  · rfl
  · intro h
    cases h

theorem exists_elements? {places : Nat} {e : Expr} {es : List Expr}
    (h : ∀ e' ∈ e :: es, e'.ReadsBack places) :
    ∃ fs, List.Forall₂ (Formula.Says places) fs (e :: es) ∧
      ∀ fuel rest, es.length < fuel →
        elements? fuel (elementTokens places (e :: es) ++ rest) = some (fs, rest) := by
  induction es generalizing e with
  | nil =>
    obtain ⟨f, hf, hvalue⟩ := h e List.mem_cons_self
    refine ⟨[f], .cons hvalue .nil, fun fuel rest hfuel => ?_⟩
    obtain ⟨fuel, rfl⟩ := Nat.exists_eq_succ_of_ne_zero (Nat.ne_of_gt hfuel)
    rw [elementTokens_single, List.append_assoc, elements?, List.singleton_append,
      hf.formula? (stops_cons (by decide) rest)]
    rfl
  | cons e' es ih =>
    rw [List.forall_mem_cons] at h
    obtain ⟨f, hf, hvalue⟩ := h.1
    obtain ⟨fs, hfs, hread⟩ := ih h.2
    refine ⟨f :: fs, .cons hvalue hfs, fun fuel rest hfuel => ?_⟩
    obtain ⟨fuel, rfl⟩ := Nat.exists_eq_succ_of_ne_zero (Nat.ne_of_gt (Nat.zero_lt_of_lt hfuel))
    have hrest := hread fuel rest (Nat.lt_of_succ_lt_succ hfuel)
    rw [elementTokens_cons, List.append_assoc, elements?, List.cons_append,
      hf.formula? (stops_cons (by decide) _)]
    change (elements? fuel _ >>= fun r => some (f :: r.1, r.2)) = _
    rw [hrest]
    rfl

theorem exists_elementTokens_eq (places : Nat) (e : Expr) (es : List Expr) :
    ∃ more, elementTokens places (e :: es) = lex (Function.exprText places e) ++ more := by
  cases es with
  | nil => exact ⟨_, elementTokens_single places e⟩
  | cons e' es => exact ⟨_, elementTokens_cons places e e' es⟩

theorem length_lt_elementTokens (places : Nat) (e : Expr) (es : List Expr) :
    es.length < (elementTokens places (e :: es)).length := by
  induction es generalizing e with
  | nil =>
    rw [elementTokens_single, List.length_append]
    exact Nat.lt_add_left _ Nat.one_pos
  | cons e' es ih =>
    have := ih e'
    rw [elementTokens_cons, List.length_append, List.length_cons, List.length_cons]
    omega

theorem lex_vectorLines (s : Settings) (es : List Expr) :
    (Function.vectorLines s es).flatMap lex =
      if es = [] then [.symbol ']'] else elementTokens s.decimalPlaces es := by
  cases es with
  | nil => rfl
  | cons e es =>
    rw [if_neg (List.cons_ne_nil e es), divides_lex.vectorLines]
    rfl

/-- The text between the braces of a definition. -/
def innerText (s : Settings) : RegressionScript.Body → List Char
  | .vector es => "[\n".toList ++ Function.indented s.indent.toList (Function.vectorLines s es)
  | .scalar e => "\n".toList ++ Function.indented s.indent.toList (Function.scalarLines s e)
  | .chain callees =>
    "\n".toList ++ (callees.flatMap (Function.callText s.indent.toList) ++
      (s.indent.toList ++ "_this".toList))

theorem text_eq (s : Settings) (f : Function) :
    f.text s =
      f.name.toList ++ (" = \x7b".toList ++ (innerText s f.body ++ "\n\x7d;\n".toList)) := by
  obtain ⟨name, body⟩ := f
  cases body <;> (simp only [Function.text, innerText, List.append_assoc]; rfl)

/-- The text between the braces is read up to the closing brace. -/
def ReadsBody (places : Nat) (inner : List Char) (b : RegressionScript.Body) : Prop :=
  ∃ body, Body.Says places body b ∧ ∀ rest,
    body? (lex inner ++ .symbol '\x7d' :: rest) = some (body, .symbol '\x7d' :: rest)

theorem readsBody_vector {es : List Expr} (hindent : ∀ c ∈ s.indent.toList, Words.isBlank c = true)
    (h : ∀ e ∈ es, e.ReadsBack s.decimalPlaces) :
    ReadsBody s.decimalPlaces (innerText s (.vector es)) (.vector es) := by
  have hlex : lex (innerText s (.vector es)) =
      .symbol '[' :: if es = [] then [.symbol ']'] else elementTokens s.decimalPlaces es := by
    rw [← lex_vectorLines, ← divides_lex.indented hindent]
    rfl
  rw [ReadsBody, hlex]
  cases es with
  | nil => exact ⟨.array [], .nil, fun rest => rfl⟩
  | cons e es =>
    obtain ⟨fs, hfs, hread⟩ := exists_elements? h
    obtain ⟨f, hf, -⟩ := h e List.mem_cons_self
    refine ⟨.array fs, hfs, fun rest => ?_⟩
    have hlength := length_lt_elementTokens s.decimalPlaces e es
    obtain ⟨more, hmore⟩ := exists_elementTokens_eq s.decimalPlaces e es
    have harray : array? (elementTokens s.decimalPlaces (e :: es) ++ .symbol '\x7d' :: rest) =
        some (fs, .symbol '\x7d' :: rest) := by
      rw [hmore, List.append_assoc, hf.array?, ← List.append_assoc, ← hmore]
      apply hread
      rw [List.length_append]
      omega
    rw [if_neg (List.cons_ne_nil e es), List.cons_append, body?, harray]
    rfl

theorem readsBody_scalar {e : Expr} (hindent : ∀ c ∈ s.indent.toList, Words.isBlank c = true)
    (h : e.ReadsBack s.decimalPlaces) :
    ReadsBody s.decimalPlaces (innerText s (.scalar e)) (.scalar e) := by
  have hlex : lex (innerText s (.scalar e)) = lex (Function.exprText s.decimalPlaces e) := by
    have hlines : (Function.scalarLines s e).flatMap lex =
        lex (Function.exprText s.decimalPlaces e) := divides_lex.fillWords s.textWidth _
    rw [← hlines, ← divides_lex.indented hindent]
    rfl
  obtain ⟨f, hf, hvalue⟩ := h
  refine ⟨.value f, hvalue, fun rest => ?_⟩
  rw [hlex, hf.body?, hf.formula? (stops_cons (by decide) rest)]
  rfl

def callTokens (callee : String) : List Token :=
  [.text "_this", .symbol '=', .text "_this", .text "call", .text callee, .symbol ';']

theorem lex_callText {indent : List Char} (hindent : ∀ c ∈ indent, Words.isBlank c = true)
    {callee : String} (h : Name.isIdentifier callee = true) (rest : List Char) :
    lex (Function.callText indent callee ++ rest) = callTokens callee ++ lex rest := by
  have hsplit : Function.callText indent callee ++ rest =
      indent ++ ("_this = _this call".toList ++ ' ' :: (callee.toList ++ ';' :: '\n' :: rest)) := by
    have hblank : "_this = _this call ".toList = "_this = _this call".toList ++ [' '] := by decide
    rw [Function.callText, hblank]
    simp only [List.append_assoc, List.cons_append, List.nil_append]
    rfl
  have hwords : lex "_this = _this call".toList =
      [.text "_this", .symbol '=', .text "_this", .text "call"] := by decide
  rw [hsplit, divides_lex.append_of_blank hindent, divides_lex.blank _ _ (by decide), hwords,
    lex_append_cons (by decide) callee.toList, lex_identifier h, divides_lex.cons (by decide)]
  rfl

theorem lex_callTexts {indent : List Char} (hindent : ∀ c ∈ indent, Words.isBlank c = true)
    {callees : List String} (h : ∀ c ∈ callees, Name.isIdentifier c = true) (rest : List Char) :
    lex (callees.flatMap (Function.callText indent) ++ rest) =
      callees.flatMap callTokens ++ lex rest := by
  induction callees with
  | nil => rfl
  | cons callee callees ih =>
    rw [List.forall_mem_cons] at h
    rw [List.flatMap_cons, List.append_assoc, lex_callText hindent h.1, ih h.2, List.flatMap_cons,
      List.append_assoc]

theorem calls?_callTokens_append {callee : String} (h : Name.isIdentifier callee = true)
    (ts : List Token) :
    calls? (callTokens callee ++ ts) = (calls? ts).map fun r => (callee :: r.1, r.2) := by
  change (if Name.isIdentifier callee = true then calls? ts >>= _ else none) = _
  rw [if_pos h]
  cases calls? ts <;> rfl

theorem calls?_callTokens {callees : List String} (h : ∀ c ∈ callees, Name.isIdentifier c = true)
    (rest : List Token) :
    calls? (callees.flatMap callTokens ++ .text "_this" :: .symbol '\x7d' :: rest) =
      some (callees, .symbol '\x7d' :: rest) := by
  induction callees with
  | nil => rfl
  | cons callee callees ih =>
    rw [List.forall_mem_cons] at h
    rw [List.flatMap_cons, List.append_assoc, calls?_callTokens_append h.1, ih h.2]
    rfl

theorem readsBody_chain {callees : List String} (places : Nat)
    (hindent : ∀ c ∈ s.indent.toList, Words.isBlank c = true)
    (h : ∀ c ∈ callees, Name.isIdentifier c = true) :
    ReadsBody places (innerText s (.chain callees)) (.chain callees) := by
  have hlex : lex (innerText s (.chain callees)) =
      callees.flatMap callTokens ++ [.text "_this"] := by
    have hthis : lex "_this".toList = [.text "_this"] := by decide
    rw [innerText, show "\n".toList = ['\n'] from rfl, List.singleton_append,
      divides_lex.cons (by decide), lex_callTexts hindent h, divides_lex.append_of_blank hindent,
      hthis]
  refine ⟨.calls callees, rfl, fun rest => ?_⟩
  have hcalls := calls?_callTokens h rest
  obtain ⟨ts, hts⟩ : ∃ ts, callees.flatMap callTokens ++ .text "_this" :: .symbol '\x7d' :: rest =
      .text "_this" :: ts := by
    cases callees <;> exact ⟨_, rfl⟩
  rw [hts] at hcalls
  rw [hlex, List.append_assoc, List.singleton_append, hts]
  change (calls? (.text "_this" :: ts)).map _ = _
  rw [hcalls]
  rfl

/-! ## Definitions -/

theorem lex_definition {name : String} (h : Name.isIdentifier name = true) (inner : List Char) :
    lex (name.toList ++ (" = \x7b".toList ++ (inner ++ "\n\x7d;\n".toList))) =
      .text name :: .symbol '=' :: .symbol '\x7b' ::
        (lex inner ++ [.symbol '\x7d', .symbol ';']) := by
  have hopen (cs : List Char) :
      lex (" = \x7b".toList ++ cs) = .symbol '=' :: .symbol '\x7b' :: lex cs := rfl
  have hclose : lex "\n\x7d;\n".toList = [.symbol '\x7d', .symbol ';'] := by decide
  have hinner : lex (inner ++ "\n\x7d;\n".toList) = lex inner ++ lex "\n\x7d;\n".toList := by
    apply lex_append
    rintro c ⟨⟩
    decide
  rw [lex_append, lex_identifier h, hopen, hinner, hclose]
  · rfl
  · rintro c ⟨⟩
    decide

theorem ReadsBody.definition? {places : Nat} {inner : List Char} {b : RegressionScript.Body}
    (h : ReadsBody places inner b) {name : String} (hname : Name.isIdentifier name = true) :
    ∃ d : Definition, d.Says places ⟨name, b⟩ ∧ ∀ rest,
      Sqf.definition?
        (lex (name.toList ++ (" = \x7b".toList ++ (inner ++ "\n\x7d;\n".toList))) ++ rest) =
          some (d, rest) := by
  obtain ⟨body, hsays, hread⟩ := h
  refine ⟨⟨name, body⟩, ⟨rfl, hsays⟩, fun rest => ?_⟩
  rw [lex_definition hname]
  simp only [List.cons_append, List.append_assoc, List.nil_append]
  rw [Sqf.definition?, if_pos hname, hread]
  rfl

/-- The names in a function can be read and so can its expressions. -/
structure Readable (places : Nat) (f : Function) : Prop where
  name : Name.isIdentifier f.name = true
  callees : ∀ c ∈ f.body.callees, Name.isIdentifier c = true
  exprs : ∀ e ∈ f.body.exprs, e.ReadsBack places

theorem Readable.readsBody {f : Function} (h : Readable s.decimalPlaces f)
    (hindent : ∀ c ∈ s.indent.toList, Words.isBlank c = true) :
    ReadsBody s.decimalPlaces (innerText s f.body) f.body := by
  obtain ⟨name, body⟩ := f
  cases body with
  | vector es => exact readsBody_vector hindent h.exprs
  | scalar e => exact readsBody_scalar hindent (h.exprs e List.mem_cons_self)
  | chain callees => exact readsBody_chain s.decimalPlaces hindent h.callees

theorem Readable.definition? {f : Function} (h : Readable s.decimalPlaces f)
    (hindent : ∀ c ∈ s.indent.toList, Words.isBlank c = true) :
    ∃ d : Definition, d.Says s.decimalPlaces f ∧ ∀ rest,
      Sqf.definition? (lex (f.text s) ++ rest) = some (d, rest) := by
  rw [text_eq]
  exact (h.readsBody hindent).definition? h.name

theorem definitions?_succ {d : Definition} {rest : List Token}
    (h : Sqf.definition? ts = some (d, rest)) (fuel : Nat) :
    definitions? (fuel + 1) ts = (definitions? fuel rest).map (d :: ·) := by
  cases ts with
  | nil => cases h
  | cons t ts =>
    rw [definitions?, h]
    · cases hrest : definitions? fuel rest <;> simp [hrest]
    · intro hnil
      cases hnil

/-- Definitions that follow one another are read one by one. -/
theorem exists_definitions? {fs : List Function} (h : ∀ f ∈ fs, Readable s.decimalPlaces f)
    (hindent : ∀ c ∈ s.indent.toList, Words.isBlank c = true) :
    ∃ ds, List.Forall₂ (Definition.Says s.decimalPlaces) ds fs ∧ ∀ fuel, fs.length ≤ fuel →
      definitions? fuel (fs.flatMap fun f => lex (f.text s)) = some ds := by
  induction fs with
  | nil => exact ⟨[], .nil, fun fuel _ => by cases fuel <;> rfl⟩
  | cons f fs ih =>
    rw [List.forall_mem_cons] at h
    obtain ⟨d, hd, hread⟩ := h.1.definition? hindent
    obtain ⟨ds, hds, hrest⟩ := ih h.2
    refine ⟨d :: ds, .cons hd hds, fun fuel hfuel => ?_⟩
    cases fuel with
    | zero => cases hfuel
    | succ fuel =>
      rw [List.flatMap_cons, definitions?_succ (hread _), hrest fuel (Nat.le_of_succ_le_succ hfuel)]
      rfl

theorem length_le_flatMap_lex {fs : List Function} (h : ∀ f ∈ fs, Readable s.decimalPlaces f) :
    fs.length ≤ (fs.flatMap fun f => lex (f.text s)).length := by
  induction fs with
  | nil => exact Nat.le_refl 0
  | cons f fs ih =>
    rw [List.forall_mem_cons] at h
    have hfs := ih h.2
    have hf : 0 < (lex (f.text s)).length := by
      rw [text_eq, lex_definition h.1.name]
      exact Nat.succ_pos _
    rw [List.flatMap_cons, List.length_append, List.length_cons]
    omega

theorem exists_parse?_render {p : Program} (h : ∀ f ∈ p.functions, Readable s.decimalPlaces f)
    (hindent : ∀ c ∈ s.indent.toList, Words.isBlank c = true) :
    ∃ ds, parse? (p.render s) = some ds ∧
      List.Forall₂ (Definition.Says s.decimalPlaces) ds p.functions := by
  have hlex : lex (p.render s).toList = p.functions.flatMap fun f => lex (f.text s) := by
    rw [Program.render, String.toList_ofList, divides_lex.intercalate (by decide) (by simp),
      List.flatMap_map]
  obtain ⟨ds, hds, hread⟩ := exists_definitions? h hindent
  refine ⟨ds, ?_, hds⟩
  rw [parse?, hlex]
  exact hread _ (length_le_flatMap_lex h)

end Sqf

end RegressionScript
