import HiceDt.Chc.Independent
import HiceDt.Smt.Solutions

/-!
# Conjectures as formulas

`check_chc` substitutes the expressions that `dt_to_z3_exp` builds in the clauses. Here
they are terms of the solver: the constants named `relation#index` are declarations, and
`+`, `-`, `<=` and `>` are operators of a theory.

Results:

* `Expr.eval_toTerm`: a term has the value of its expression.
* `Conjecture.toSmt_wellFormed`, `Conjecture.toSmt_overVariables`: the constants of the
  term are those of the expression.
* `getUnorderedMap_wellSorted`, `getUnorderedMap_covers`: for every tree there is a conjecture
  for each relation, and all conjectures are formulas.
-/

namespace HiceDt.Chc

open HiceDt Loop Fol

variable {α : Type} {T : Theory α} {I : Interp α} {ρ : Env}

/-! ## Declarations, values and terms -/

/-- The sort of the logic. -/
def Z3Sort.srt : Z3Sort → Srt
  | .bool => .bool
  | .int => .int

/-- The declaration of a relation. -/
def FuncDecl.toDecl (decl : FuncDecl) : Decl := ⟨.str decl.name, decl.domain.map Z3Sort.srt, .bool⟩

/-- The declaration of the constant `relation#index`. -/
def Const.toDecl (c : Const) : Decl :=
  ⟨.str (c.relation ++ "#" ++ toString c.index), [], c.sort.srt⟩

/-- The value of the logic. -/
def Value.toVal : Value → Val α
  | .bool b => .bool b
  | .int n => .int n

/-- The term for an expression. -/
def Expr.toTerm : Expr → Term
  | .boolVal b => .op (.bool b) []
  | .const c => c.toDecl.const
  | .add a b => .op (.other "+") [a.toTerm, b.toTerm]
  | .sub a b => .op (.other "-") [a.toTerm, b.toTerm]
  | .le a n => .op (.other "<=") [a.toTerm, .op (.int n) []]
  | .gt a n => .op (.other ">") [a.toTerm, .op (.int n) []]
  | .and a b => .op .and [a.toTerm, b.toTerm]
  | .or a b => .op .or [a.toTerm, b.toTerm]

/-- A conjecture as a term over its variables. -/
def Conjecture.toSmt (c : Conjecture) : Smt.Conjecture := ⟨c.expr.toTerm, c.vars.map Const.toDecl⟩

/-- The meaning of the operators in a conjecture. -/
structure Arithmetic (T : Theory α) : Prop where
  add : ∀ a b : ℤ, T "+" [.int a, .int b] = .int (a + b)
  sub : ∀ a b : ℤ, T "-" [.int a, .int b] = .int (a - b)
  le : ∀ a b : ℤ, T "<=" [.int a, .int b] = .bool (a ≤ b)
  gt : ∀ a b : ℤ, T ">" [.int a, .int b] = .bool (b < a)
  le_sort : ∀ vs, (T "<=" vs).sort = .bool
  gt_sort : ∀ vs, (T ">" vs).sort = .bool

theorem Z3Sort.srt_inj {s s' : Z3Sort} (h : s.srt = s'.srt) : s = s' := by
  cases s <;> cases s' <;> first | rfl | cases h

theorem FuncDecl.toDecl_inj {decl decl' : FuncDecl} (h : decl.toDecl = decl'.toDecl) :
    decl = decl' := by
  obtain ⟨name, domain⟩ := decl
  obtain ⟨name', domain'⟩ := decl'
  unfold FuncDecl.toDecl at h
  injection h with hname hdomain _
  obtain rfl : name = name' := Symbol.str.inj hname
  have hinj : Function.Injective Z3Sort.srt := fun _ _ => Z3Sort.srt_inj
  obtain rfl : domain = domain' := List.map_injective_iff.mpr hinj hdomain
  rfl

theorem FuncDecl.toDecl_arity (decl : FuncDecl) : decl.toDecl.arity = decl.arity :=
  List.length_map _

/-- The names of the variables of a relation differ. -/
theorem Const.toDecl_inj {c c' : Const} (hrel : c.relation = c'.relation)
    (h : c.toDecl = c'.toDecl) : c = c' := by
  obtain ⟨relation, index, sort⟩ := c
  obtain ⟨relation', index', sort'⟩ := c'
  obtain rfl : relation = relation' := hrel
  unfold Const.toDecl at h
  injection h with hname _ hsort
  have hstr : toString index = toString index' :=
    (String.append_right_inj _).mp (Symbol.str.inj hname)
  have hdigits : Nat.toDigits 10 index = Nat.toDigits 10 index' := by
    rw [← Nat.toList_repr, ← Nat.toList_repr]
    exact congrArg String.toList hstr
  obtain rfl : index = index' := by
    rw [← Nat.ofDigitChars_ten_toDigits (n := index), hdigits, Nat.ofDigitChars_ten_toDigits]
  obtain rfl : sort = sort' := Z3Sort.srt_inj hsort
  rfl

theorem FuncDecl.nodup_toDecl (decl : FuncDecl) : (decl.constants.map Const.toDecl).Nodup :=
  decl.nodup_constants.map_on fun _ hc _ hc' h => Const.toDecl_inj
    ((FuncDecl.relation_of_mem hc).trans (FuncDecl.relation_of_mem hc').symm) h

/-! ## Constants -/

/-- A term consists of applications. -/
theorem Expr.expression_toTerm (e : Expr) : Smt.Expression e.toTerm := by
  induction e with
  | boolVal b => exact Smt.expression_op.mpr (by simp)
  | const c => exact Smt.expression_app.mpr ⟨rfl, by simp⟩
  | le a n ih | gt a n ih =>
    refine Smt.expression_op.mpr ?_
    simp only [List.mem_cons, List.not_mem_nil, or_false, forall_eq_or_imp, forall_eq]
    exact ⟨ih, Smt.expression_op.mpr (by simp)⟩
  | add a b iha ihb | sub a b iha ihb | and a b iha ihb | or a b iha ihb =>
    refine Smt.expression_op.mpr ?_
    simp only [List.mem_cons, List.not_mem_nil, or_false, forall_eq_or_imp, forall_eq]
    exact ⟨iha, ihb⟩

/-- The functions in a term are the constants of its expression. -/
theorem Expr.mem_symbols_toTerm {e : Expr} {f : Decl} :
    f ∈ e.toTerm.symbols ↔ ∃ c ∈ e.constants, c.toDecl = f := by
  induction e with
  | boolVal b => simp [toTerm, constants]
  | const c => simp [toTerm, Decl.const, constants, eq_comm]
  | add a b iha ihb => simp [toTerm, constants, iha, ihb, or_and_right, exists_or]
  | sub a b iha ihb => simp [toTerm, constants, iha, ihb, or_and_right, exists_or]
  | le a n ih => simp [toTerm, constants, ih]
  | gt a n ih => simp [toTerm, constants, ih]
  | and a b iha ihb => simp [toTerm, constants, iha, ihb, or_and_right, exists_or]
  | or a b iha ihb => simp [toTerm, constants, iha, ihb, or_and_right, exists_or]

theorem Expr.overConsts_toTerm {e : Expr} {xs : List Const} (h : ∀ c ∈ e.constants, c ∈ xs)
    (depth : ℕ) : e.toTerm.overConsts (xs.map Const.toDecl) depth = true := by
  induction e with
  | boolVal b => rfl
  | const c =>
    have hc : c ∈ xs := h c (by simp [constants])
    simp only [toTerm, Decl.const, Term.overConsts, List.isEmpty_nil, Bool.and_true,
      decide_eq_true_eq]
    exact List.mem_map_of_mem hc
  | le a n ih =>
    simp [toTerm, Term.overConsts, Term.overList_eq, ih h]
  | gt a n ih =>
    simp [toTerm, Term.overConsts, Term.overList_eq, ih h]
  | add a b iha ihb | sub a b iha ihb | and a b iha ihb | or a b iha ihb =>
    have ha := iha fun c hc => h c (List.mem_append_left _ hc)
    have hb := ihb fun c hc => h c (List.mem_append_right _ hc)
    simp [toTerm, Term.overConsts, Term.overList_eq, ha, hb]

/-- Every conjecture is over variables of relations. -/
theorem Conjecture.toSmt_overVariables (c : Conjecture) : c.toSmt.OverVariables := by
  refine ⟨Term.closed_of_quantifierFree c.expr.expression_toTerm.1 0, fun f hf => ?_⟩
  obtain ⟨x, -, rfl⟩ := Expr.mem_symbols_toTerm.mp hf
  exact ⟨rfl, _, rfl⟩

theorem Conjecture.toSmt_wellFormed {c : Conjecture} (h : ∀ x ∈ c.expr.constants, x ∈ c.vars) :
    c.toSmt.WellFormed :=
  Expr.overConsts_toTerm h 0

/-! ## Values of terms -/

/-- The sorts of an expression and its parts. -/
def Expr.HasSort : Expr → Z3Sort → Prop
  | .boolVal _, s => s = .bool
  | .const c, s => c.sort = s
  | .add a b, s => s = .int ∧ a.HasSort .int ∧ b.HasSort .int
  | .sub a b, s => s = .int ∧ a.HasSort .int ∧ b.HasSort .int
  | .le a _, s => s = .bool ∧ a.HasSort .int
  | .gt a _, s => s = .bool ∧ a.HasSort .int
  | .and a b, s => s = .bool ∧ a.HasSort .bool ∧ b.HasSort .bool
  | .or a b, s => s = .bool ∧ a.HasSort .bool ∧ b.HasSort .bool

/-- The value of an expression with the given sort. -/
def Expr.eval (ρ : Env) (e : Expr) : Z3Sort → Value
  | .bool => .bool (e.evalBool ρ)
  | .int => .int (e.evalInt ρ)

/-- The term of a sorted expression has the value of the expression. -/
theorem Expr.eval_toTerm (hT : Arithmetic T) {e : Expr} : ∀ {s : Z3Sort}, e.HasSort s →
    (∀ c ∈ e.constants, ∃ v, ρ c = some v ∧ v.sort = c.sort ∧ I c.toDecl [] = v.toVal) →
    e.toTerm.eval T I [] = (e.eval ρ s).toVal := by
  induction e with
  | boolVal b =>
    intro s hs _
    rw [show s = .bool from hs]
    rfl
  | const c =>
    intro s hs hc
    obtain ⟨v, hv, hsort, hI⟩ := hc c (by simp [constants])
    have hvs : v.sort = s := hsort.trans hs
    rw [toTerm, Decl.const, Term.eval_app, List.map_nil, hI]
    cases v with
    | bool b =>
      rw [← hvs]
      simp [Value.sort, Expr.eval, evalBool, hv]
    | int n =>
      rw [← hvs]
      simp [Value.sort, Expr.eval, evalInt, hv]
  | add a b iha ihb =>
    rintro s ⟨rfl, ha, hb⟩ hc
    have ha' := iha ha fun c h => hc c (List.mem_append_left _ h)
    have hb' := ihb hb fun c h => hc c (List.mem_append_right _ h)
    simp only [toTerm, Term.eval_op, List.map_cons, List.map_nil, ha', hb', Op.eval, Expr.eval]
    exact hT.add _ _
  | sub a b iha ihb =>
    rintro s ⟨rfl, ha, hb⟩ hc
    have ha' := iha ha fun c h => hc c (List.mem_append_left _ h)
    have hb' := ihb hb fun c h => hc c (List.mem_append_right _ h)
    simp only [toTerm, Term.eval_op, List.map_cons, List.map_nil, ha', hb', Op.eval, Expr.eval]
    exact hT.sub _ _
  | le a n ih =>
    rintro s ⟨rfl, ha⟩ hc
    simp only [toTerm, Term.eval_op, List.map_cons, List.map_nil, ih ha hc, Op.eval, Expr.eval]
    exact hT.le _ _
  | gt a n ih =>
    rintro s ⟨rfl, ha⟩ hc
    simp only [toTerm, Term.eval_op, List.map_cons, List.map_nil, ih ha hc, Op.eval, Expr.eval]
    exact hT.gt _ _
  | and a b iha ihb =>
    rintro s ⟨rfl, ha, hb⟩ hc
    have ha' := iha ha fun c h => hc c (List.mem_append_left _ h)
    have hb' := ihb hb fun c h => hc c (List.mem_append_right _ h)
    simp [toTerm, ha', hb', Op.eval, Expr.eval, Value.toVal, evalBool]
  | or a b iha ihb =>
    rintro s ⟨rfl, ha, hb⟩ hc
    have ha' := iha ha fun c h => hc c (List.mem_append_left _ h)
    have hb' := ihb hb fun c h => hc c (List.mem_append_right _ h)
    simp [toTerm, ha', hb', Op.eval, Expr.eval, Value.toVal, evalBool]

/-- The variables of a relation have the arguments as values. -/
theorem FuncDecl.valuation_constants {decl : FuncDecl} {values : List Value}
    (hsort : values.map Value.sort = decl.domain) : ∀ c ∈ decl.constants,
      ∃ v, decl.env values c = some v ∧ v.sort = c.sort ∧
        Smt.valuation (decl.constants.map Const.toDecl) (values.map Value.toVal) c.toDecl [] =
          (v.toVal : Val α) := by
  intro c hc
  have heval := decl.constants_evaluate hsort
  obtain ⟨i, hi, rfl⟩ := List.getElem_of_mem hc
  have hi' : i < values.length := heval.length_eq ▸ hi
  have hmem : (decl.constants[i], values[i]) ∈ decl.constants.zip values := by
    rw [List.mem_iff_getElem]
    exact ⟨i, by rw [List.length_zip]; omega, List.getElem_zip⟩
  have hmem' : (decl.constants[i].toDecl, (values[i].toVal : Val α)) ∈
      (decl.constants.map Const.toDecl).zip (values.map Value.toVal) := by
    rw [List.zip_map]
    exact List.mem_map_of_mem (f := Prod.map Const.toDecl Value.toVal) hmem
  refine ⟨values[i], lookup_zip decl.nodup_constants _ hmem, (heval.get hi hi').sort_eq.symm, ?_⟩
  rw [Smt.valuation, lookup_zip decl.nodup_toDecl _ hmem']
  rfl

/-- The value of a conjecture on the arguments of its relation. -/
theorem Conjecture.toSmt_value (hT : Arithmetic T) {decl : FuncDecl} {e : Expr}
    (hs : e.HasSort .bool) (hc : ∀ c ∈ e.constants, c ∈ decl.constants) {values : List Value}
    (hsort : values.map Value.sort = decl.domain) :
    (Conjecture.toSmt ⟨e, decl.constants⟩).value T (values.map Value.toVal) =
      .bool (e.evalBool (decl.env values)) :=
  Expr.eval_toTerm hT hs fun c h => FuncDecl.valuation_constants hsort c (hc c h)

/-! ## Formulas -/

/-- An expression that is built by a relation symbol or a connective. -/
def Expr.isFormula : Expr → Bool
  | .boolVal _ => true
  | .le _ _ => true
  | .gt _ _ => true
  | .and _ _ => true
  | .or _ _ => true
  | _ => false

theorem Expr.isFormula_sort (hT : Arithmetic T) {e : Expr} (h : e.isFormula = true) :
    (e.toTerm.eval T I []).sort = .bool := by
  cases e with
  | boolVal b => rfl
  | const c => cases h
  | add a b => cases h
  | sub a b => cases h
  | le a n =>
    rw [toTerm, Term.eval_op]
    exact hT.le_sort _
  | gt a n =>
    rw [toTerm, Term.eval_op]
    exact hT.gt_sort _
  | and a b => rw [toTerm, Term.eval_op]; rfl
  | or a b => rw [toTerm, Term.eval_op]; rfl

/-- The attributes are expressions of sort `Bool` or `Int`. -/
theorem FuncDecl.attributes_hasSort {decl : FuncDecl} {e : Expr} (he : e ∈ decl.attributes) :
    e.HasSort (if e.isBool then .bool else .int) := by
  rcases List.mem_append.mp he with he | he
  · obtain ⟨c, -, rfl⟩ := List.mem_map.mp he
    show c.sort = _
    cases hc : c.sort <;> simp [Expr.isBool, hc]
  · obtain ⟨p, -, he⟩ := List.mem_flatMap.mp he
    unfold derivedAttributes at he
    split_ifs at he with hint
    · rcases List.mem_pair.mp he with rfl | rfl
      · exact ⟨rfl, hint.1, hint.2⟩
      · exact ⟨rfl, hint.1, hint.2⟩
    · cases he

/-- The attributes of an interface are sorted. -/
def AttributesSorted (attributes : List Expr) : Prop :=
  ∀ e ∈ attributes, e.HasSort (if e.isBool then .bool else .int)

theorem LearnerInterface.attributesSorted (iface : LearnerInterface) :
    AttributesSorted iface.attributes := by
  intro e he
  obtain ⟨decl, -, he⟩ := List.mem_flatMap.mp he
  exact FuncDecl.attributes_hasSort he

/-- A formula of sort `Bool`. -/
structure Expr.WellSorted (e : Expr) : Prop where
  sort : e.HasSort .bool
  formula : e.isFormula = true

variable {attributes : List Expr}

theorem test_wellSorted {e : Expr} (he : e.HasSort (if e.isBool then .bool else .int))
    (threshold : ℤ) : (leftTest e threshold).WellSorted ∧ (rightTest e threshold).WellSorted := by
  unfold leftTest rightTest
  split_ifs at he ⊢
  · exact ⟨⟨⟨rfl, he, rfl⟩, rfl⟩, ⟨⟨rfl, he, rfl⟩, rfl⟩⟩
  · exact ⟨⟨⟨rfl, he⟩, rfl⟩, ⟨⟨rfl, he⟩, rfl⟩⟩

theorem childExpression_wellSorted {child : Tree} {subtree : Except Error Expr} {edge e : Expr}
    (hedge : edge.WellSorted) (hsub : ∀ e, subtree = .ok e → e.WellSorted)
    (h : childExpression child subtree (.ok edge) = .ok (some e)) : e.WellSorted := by
  cases child with
  | null => cases h
  | categorical a n cs => cases h
  | leaf b =>
    cases b with
    | true =>
      obtain rfl := Option.some.inj (Except.ok.inj h)
      exact hedge
    | false => cases Except.ok.inj h
  | int a θ l r =>
    obtain ⟨e', he', hret⟩ := bind_ok.mp h
    obtain rfl := Option.some.inj (Except.ok.inj hret)
    exact ⟨⟨rfl, (hsub e' he').sort, hedge.sort⟩, rfl⟩

/-- The expression of a tree of integer nodes is a formula. -/
theorem getZ3ExpInt_wellSorted (hattr : AttributesSorted attributes) {t : Tree} :
    ∀ {e : Expr}, getZ3ExpInt attributes t = .ok e → e.WellSorted := by
  induction t with
  | null => exact fun h => by cases h
  | leaf b => exact fun h => by cases h
  | categorical a n cs ih => exact fun h => by cases h
  | int attr threshold left right ihl ihr =>
    intro e h
    obtain ⟨ol, hol, h⟩ := bind_ok.mp h
    obtain ⟨or, hor, h⟩ := bind_ok.mp h
    have hside : ∀ {child : Tree} {o : Option Expr} {test : Expr → Expr},
        (∀ a, a.HasSort (if a.isBool then .bool else .int) → (test a).WellSorted) →
        (∀ e, getZ3ExpInt attributes child = .ok e → e.WellSorted) →
        childExpression child (getZ3ExpInt attributes child)
          ((findAttribute attributes attr).map test) = .ok o → ∀ e, o = some e → e.WellSorted := by
      intro child o test htest hsub hrun e he
      subst he
      cases hfind : findAttribute attributes attr with
      | error err =>
        rw [hfind] at hrun
        cases child with
        | null => cases hrun
        | categorical a n cs => cases hrun
        | leaf b =>
          cases b with
          | true => cases hrun
          | false => cases Except.ok.inj hrun
        | int a θ l r =>
          obtain ⟨_, _, hrun⟩ := bind_ok.mp hrun
          cases hrun
      | ok a =>
        rw [hfind] at hrun
        have ha : a ∈ attributes := by
          unfold findAttribute at hfind
          split at hfind
          · rename_i a' hget
            obtain rfl := Except.ok.inj hfind
            exact List.mem_of_getElem? hget
          · cases hfind
        exact childExpression_wellSorted (htest a (hattr a ha)) hsub hrun
    have hl := hside (fun a ha => (test_wellSorted ha threshold).1) (fun _ => ihl) hol
    have hr := hside (fun a ha => (test_wellSorted ha threshold).2) (fun _ => ihr) hor
    cases ol with
    | some l =>
      cases or with
      | some r =>
        obtain rfl := Except.ok.inj h
        exact ⟨⟨rfl, (hl l rfl).sort, (hr r rfl).sort⟩, rfl⟩
      | none =>
        obtain rfl := Except.ok.inj h
        exact hl l rfl
    | none =>
      cases or with
      | some r =>
        obtain rfl := Except.ok.inj h
        exact hr r rfl
      | none =>
        obtain rfl := Except.ok.inj h
        exact ⟨rfl, rfl⟩

theorem nextExpression_wellSorted (hattr : AttributesSorted attributes) {expression e : Expr}
    {child : Tree} (h : expression.WellSorted)
    (hrun : nextExpression attributes expression child = .ok e) : e.WellSorted := by
  cases child with
  | null =>
    obtain rfl := Except.ok.inj hrun
    exact h
  | leaf b =>
    obtain rfl := Except.ok.inj hrun
    exact ⟨rfl, rfl⟩
  | int a θ l r => exact getZ3ExpInt_wellSorted hattr hrun
  | categorical a n cs =>
    obtain rfl := Except.ok.inj hrun
    exact h

/-- All conjectures in the map are formulas with the variables of their relation. -/
def ConjectureMap.WellSorted (map : ConjectureMap) : Prop :=
  ∀ decl c, map decl = some c → c.expr.WellSorted ∧ c.vars = decl.constants

theorem ConjectureMap.WellSorted.emplace {map : ConjectureMap} (h : map.WellSorted)
    (decl : FuncDecl)
    {e : Expr} (he : e.WellSorted) : (map.emplace decl ⟨e, decl.constants⟩).WellSorted := by
  intro decl' c' hc'
  cases hdecl : map decl with
  | some old =>
    rw [ConjectureMap.emplace, hdecl] at hc'
    exact h decl' c' hc'
  | none =>
    rw [ConjectureMap.emplace, hdecl] at hc'
    by_cases heq : decl' = decl
    · subst heq
      have hself : Function.update map decl' (some ⟨e, decl'.constants⟩) decl' = some c' := hc'
      rw [Function.update_self] at hself
      rw [← Option.some.inj hself]
      exact ⟨he, rfl⟩
    · have hother : Function.update map decl (some ⟨e, decl.constants⟩) decl' = some c' := hc'
      rw [Function.update_of_ne heq] at hother
      exact h decl' c' hother

theorem fillMap_wellSorted {root : Tree} {random : FuncDecl → Bool} :
    ∀ (relations : List FuncDecl) {map : ConjectureMap}, map.WellSorted →
      (fillMap root random relations map).WellSorted := by
  intro relations
  induction relations with
  | nil => exact fun h => h
  | cons decl relations ih => exact fun h => ih (h.emplace decl ⟨rfl, rfl⟩)

theorem categoricalLoop_wellSorted {iface : LearnerInterface} : ∀ (rest : List Tree) (i : ℕ)
    {expression : Expr} {map map' : ConjectureMap}, expression.WellSorted → map.WellSorted →
      categoricalLoop iface rest i expression map = .ok map' → map'.WellSorted := by
  intro rest
  induction rest with
  | nil =>
    intro i expression map map' _ hmap hrun
    obtain rfl := Except.ok.inj hrun
    exact hmap
  | cons child rest ih =>
    intro i expression map map' he hmap hrun
    obtain ⟨e, hnext, hrun⟩ := bind_ok.mp hrun
    obtain ⟨decl, -, hrun⟩ := bind_ok.mp hrun
    have hnew := nextExpression_wellSorted iface.attributesSorted he hnext
    exact ih (i + 1) hnew (hmap.emplace decl hnew) hrun

/-- The map for a tree: what the loop over the children of the root leaves, filled up. -/
theorem getUnorderedMap_ok {iface : LearnerInterface} {random : FuncDecl → Bool} {root : Tree}
    {map : ConjectureMap} (h : getUnorderedMap iface random root = .ok map) :
    ∃ map', map = fillMap root random iface.relations map' ∧ (map' = (fun _ => none) ∨
      ∃ attr n children, root = .categorical attr n children ∧
        categoricalLoop iface ((List.range n).map children) 0 (.boolVal false) (fun _ => none) =
          .ok map') := by
  cases root with
  | categorical attr n children =>
    rw [getUnorderedMap] at h
    obtain ⟨map', hmap', hret⟩ := bind_ok.mp h
    exact ⟨map', (Except.ok.inj hret).symm, .inr ⟨attr, n, children, rfl, hmap'⟩⟩
  | null => exact ⟨_, (Except.ok.inj h).symm, .inl rfl⟩
  | leaf b => exact ⟨_, (Except.ok.inj h).symm, .inl rfl⟩
  | int a θ l r => exact ⟨_, (Except.ok.inj h).symm, .inl rfl⟩

/-- The conjectures for any tree are formulas with the variables of their relations. -/
theorem getUnorderedMap_wellSorted {iface : LearnerInterface} {random : FuncDecl → Bool}
    {root : Tree} {map : ConjectureMap} (h : getUnorderedMap iface random root = .ok map) :
    map.WellSorted := by
  have hempty : ConjectureMap.WellSorted fun _ => none := by
    intro decl c hc
    cases hc
  obtain ⟨map', rfl, hmap'⟩ := getUnorderedMap_ok h
  refine fillMap_wellSorted iface.relations ?_
  rcases hmap' with rfl | ⟨attr, n, children, -, hloop⟩
  · exact hempty
  · have hfalse : (Expr.boolVal false).WellSorted := ⟨rfl, rfl⟩
    exact categoricalLoop_wellSorted _ 0 hfalse hempty hloop

/-- There is a conjecture for every relation. -/
theorem getUnorderedMap_covers {iface : LearnerInterface} {random : FuncDecl → Bool}
    {root : Tree} {map : ConjectureMap} (h : getUnorderedMap iface random root = .ok map) :
    ∀ decl ∈ iface.relations, ∃ c, map decl = some c := by
  obtain ⟨map', rfl, -⟩ := getUnorderedMap_ok h
  have hfill : ∀ (relations : List FuncDecl) (map : ConjectureMap), ∀ decl ∈ relations,
      ∃ c, fillMap root random relations map decl = some c := by
    intro relations
    induction relations with
    | nil => simp
    | cons decl' relations ih =>
      intro map decl hdecl
      rcases List.mem_cons.mp hdecl with rfl | hdecl
      · cases hmap : map decl with
        | some c => exact ⟨c, fillMap_of_some (decl :: relations) map hmap⟩
        | none => exact ⟨_, fillMap_of_some relations _ (ConjectureMap.emplace_of_none _ hmap)⟩
      · exact ih _ decl hdecl
  exact hfill iface.relations map'

end HiceDt.Chc
