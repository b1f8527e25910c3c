import HiceDt.Smt.Parser
import HiceDt.Smt.Substitute

/-!
# Counterexamples of the CHC teacher

What a counterexample of `check_chc` says about the conjectures. The substituted clause
has the value of the clause in the interpretation in which the predicates stand for
their conjectures, so a counterexample violates the clause there.

Results:

* `eval_substituteAll`: the meaning of the substituted clause.
* `conjuncts_true`: a formula that holds makes its conjuncts true.
* `genuine_of_conjuncts`: when counterexamples are genuine.
-/

namespace HiceDt.Smt

open HiceDt Loop Fol

variable {α : Type} {T : Theory α} {I : Interp α} {conjectures : ConjectureMap}

/-! ## The meaning of conjectures -/

/-- The value of a conjecture on arguments. -/
noncomputable def Conjecture.value (T : Theory α) (c : Conjecture) (vs : List (Val α)) : Val α :=
  c.expr.eval T (valuation c.vars vs) []

/-- The expression is constructed using the variables. -/
def Conjecture.WellFormed (c : Conjecture) : Prop := c.expr.overConsts c.vars 0 = true

/-- The truth value of the conjecture for a data point. -/
noncomputable def truthOn (T : Theory α) (conjectures : ConjectureMap) (d : TeacherDatapoint α) :
    Option Bool :=
  (conjectures d.predicate).map fun c => (c.value T d.values).truth

/-- The conjectures are true on the left-hand-side and false on the right-hand-side. -/
def Genuine (T : Theory α) (conjectures : ConjectureMap) (ce : HornCounterexample α) : Prop :=
  (∀ d ∈ ce.lhs, truthOn T conjectures d = some true) ∧
    ∀ d ∈ ce.rhs, truthOn T conjectures d = some false

/-! ## The meaning of substitution -/

/-- A conjecture over its variables has the same meaning everywhere. -/
theorem meaning_eq_value {c : Conjecture} (hc : c.WellFormed) : c.meaning T I = c.value T := by
  funext vs
  refine Term.eval_overConsts (fun x hx => ?_) hc (by simp)
  rw [withArguments, if_pos hx]

/-- The interpretation in which the predicates `decls` stand for their conjectures. -/
noncomputable def withConjectures (T : Theory α) (conjectures : ConjectureMap) (decls : List Decl)
    (I : Interp α) : Interp α := fun f =>
  if f ∈ decls then ((conjectures f).map fun c => c.value T).getD (I f) else I f

/-- The clause in which all predicates are substituted. -/
theorem eval_substituteAll (hwf : ∀ f c, conjectures f = some c → c.WellFormed)
    {decls : List Decl} : ∀ {e e' : Term}, substituteAll conjectures decls e = .ok e' →
      e'.eval T I [] = e.eval T (withConjectures T conjectures decls I) [] := by
  induction decls with
  | nil =>
    intro e e' h
    rw [← Except.ok.inj h]
    congr 1
  | cons decl rest ih =>
    intro e e' h
    obtain ⟨c, hc, h⟩ := bind_ok.mp h
    obtain ⟨_, _, h⟩ := bind_ok.mp h
    obtain ⟨e₁, he₁, h⟩ := bind_ok.mp h
    obtain ⟨_, _, he₁⟩ := bind_ok.mp he₁
    have hsome := conjectureAt_ok.mp hc
    rw [ih h, eval_substituteLoop (Term.closed_of_overConsts (hwf decl c hsome)) he₁,
      meaning_eq_value (hwf decl c hsome)]
    congr 1
    funext f
    by_cases hf : f = decl
    · subst hf
      rw [Function.update_self, withConjectures, if_pos List.mem_cons_self, hsome]
      rfl
    · rw [Function.update_of_ne hf, withConjectures, withConjectures]
      simp only [List.mem_cons, hf, false_or]

/-! ## Conjuncts -/

/-- The applications that hold whenever the formula holds (`isNegated` is false) or
    does not hold, as far as the connectives show it. -/
def conjuncts : Bool → Term → List Predicate
  | false, .app f args => [⟨f, args⟩]
  | isNegated, .op .not [t] => conjuncts (!isNegated) t
  | false, .op .and args => conjunctsList false args
  | true, .op .or args => conjunctsList true args
  | true, .op .implies [t, u] => conjuncts false t ++ conjuncts true u
  | false, .op .or [t] => conjuncts false t
  | true, .op .and [t] => conjuncts true t
  | _, _ => []
where
  /-- The conjuncts of a list of formulas. -/
  conjunctsList (isNegated : Bool) : List Term → List Predicate
    | [] => []
    | t :: ts => conjuncts isNegated t ++ conjunctsList isNegated ts

theorem mem_conjunctsList {isNegated : Bool} {ts : List Term} {a : Predicate} :
    a ∈ conjuncts.conjunctsList isNegated ts ↔ ∃ t ∈ ts, a ∈ conjuncts isNegated t := by
  induction ts with
  | nil => simp [conjuncts.conjunctsList]
  | cons t ts ih => simp [conjuncts.conjunctsList, ih]

/-- A formula that holds makes its conjuncts true. -/
theorem conjuncts_true {t : Term} : ∀ {isNegated : Bool} {a : Predicate},
    a ∈ conjuncts isNegated t → (t.eval T I []).truth = !isNegated →
      (Term.eval T I (.app a.decl a.args) []).truth = true := by
  induction t using Term.induction with
  | op o args ih =>
    intro isNegated a ha ht
    rw [Term.eval_op] at ht
    rw [conjuncts.eq_def] at ha
    split at ha
    case h_1 h => cases h
    case h_2 t h =>
      cases h
      exact ih t (by simp) ha (by simpa [Op.eval] using ht)
    case h_3 h =>
      cases h
      obtain ⟨t, hmem, ha⟩ := mem_conjunctsList.mp ha
      have htrue := List.all_eq_true.mp ht _ (List.mem_map_of_mem hmem)
      exact ih t hmem ha (by simpa [Op.eval] using htrue)
    case h_4 h =>
      cases h
      obtain ⟨t, hmem, ha⟩ := mem_conjunctsList.mp ha
      have hall := List.any_eq_false.mp ht _ (List.mem_map_of_mem hmem)
      exact ih t hmem ha (by simpa using hall)
    case h_5 t u h =>
      cases h
      have hboth : (t.eval T I []).truth = true ∧ (u.eval T I []).truth = false := by
        simpa [Op.eval] using ht
      rcases List.mem_append.mp ha with ha | ha
      · exact ih t (by simp) ha hboth.1
      · exact ih u (by simp) ha hboth.2
    case h_6 h =>
      cases h
      exact ih _ List.mem_cons_self ha (by simpa [Op.eval] using ht)
    case h_7 h =>
      cases h
      exact ih _ List.mem_cons_self ha (by simpa [Op.eval] using ht)
    case h_8 => simp at ha
  | app f args _ =>
    intro isNegated a ha ht
    cases isNegated with
    | true => simp [conjuncts] at ha
    | false =>
      simp only [conjuncts, List.mem_singleton] at ha
      rw [ha]
      exact ht
  | var index =>
    intro isNegated a ha
    cases isNegated <;> simp [conjuncts] at ha
  | quantifier q bound body _ =>
    intro isNegated a ha
    cases isNegated <;> simp [conjuncts] at ha

/-! ## Genuine counterexamples -/

variable {check : Solver α} {chc : ConstraintedHornClause}

/-- The collected applications of the body are conjuncts of it, and the arguments of
    collected applications do not contain predicates of the clause. -/
structure CollectsConjuncts (chc : ConstraintedHornClause) : Prop where
  conjuncts : ∀ lhs rhs, chc.expr = .op .implies [lhs, rhs] →
    ∀ a ∈ chc.predicatesInLhs, a ∈ conjuncts false lhs
  arguments : ∀ a ∈ chc.predicatesInLhs ++ chc.predicatesInRhs, ∀ t ∈ a.args,
    ∀ f ∈ t.symbols, f ∉ chc.uninterpretedPredicates

/-- In an interpretation that violates the clause, the collected applications of the body
    hold and the one of the head does not. -/
theorem Clause.violated (h : Clause chc) (hcond : CollectsConjuncts chc)
    (hfalse : (chc.expr.eval T I []).truth = false) :
    (∀ a ∈ chc.predicatesInLhs, a.decl ∈ chc.uninterpretedPredicates ∧
      (Term.eval T I (.app a.decl a.args) []).truth = true) ∧
    ∀ a ∈ chc.predicatesInRhs, a.decl ∈ chc.uninterpretedPredicates ∧
      (Term.eval T I (.app a.decl a.args) []).truth = false := by
  cases h with
  | query =>
    refine ⟨fun a ha => ?_, by simp⟩
    rw [List.mem_singleton.mp ha]
    exact ⟨List.mem_singleton_self _, by simpa [Op.eval] using hfalse⟩
  | fact _ =>
    refine ⟨by simp, fun a ha => ?_⟩
    rw [List.mem_singleton.mp ha]
    exact ⟨List.mem_singleton_self _, hfalse⟩
  | @horn lhs rhs x y _ hrhs hx hy =>
    have hboth : (lhs.eval T I []).truth = true ∧ (rhs.eval T I []).truth = false := by
      simpa [Op.eval] using hfalse
    have hlistedX : x.Listed := (extractRelations_spec hx).listed (by simp [Extracted.Listed])
    have hextends := extractRelations_spec hy
    refine ⟨fun a ha => ?_, fun a ha => ?_⟩
    · refine ⟨hextends.relations _ (hlistedX a ha), ?_⟩
      exact conjuncts_true (hcond.conjuncts lhs rhs rfl a ha) hboth.1
    · refine ⟨hextends.listed (by simp [Extracted.Listed]) a ha, ?_⟩
      cases rhs with
      | app decl args =>
        by_cases harity : 0 < decl.arity
        · rw [(extractRelations_predicate harity hy).2.2] at ha
          simp only [List.insert_nil, List.mem_singleton] at ha
          rw [ha]
          exact hboth.2
        · rw [extractRelations, if_neg harity] at hy
          rw [← Except.ok.inj hy] at ha
          simp at ha
      | op o args => cases hrhs
      | var index => cases hrhs
      | quantifier q bound body => cases hrhs

theorem substituteAll_some {decls : List Decl} : ∀ {e e' : Term},
    substituteAll conjectures decls e = .ok e' →
      ∀ decl ∈ decls, ∃ c, conjectures decl = some c := by
  induction decls with
  | nil => simp
  | cons decl rest ih =>
    intro e e' h decl' hd
    obtain ⟨c, hc, h⟩ := bind_ok.mp h
    obtain ⟨_, _, h⟩ := bind_ok.mp h
    obtain ⟨e₁, _, h⟩ := bind_ok.mp h
    rcases List.mem_cons.mp hd with rfl | hd
    · exact ⟨c, conjectureAt_ok.mp hc⟩
    · exact ih h decl' hd

/-- The conjecture has the value of the application on the data point that is
    extracted for it. -/
theorem truthOn_extractDatapoint {decls : List Decl} {eval : Term → Val α} {a : Predicate}
    (heval : ∀ t, eval t = t.eval T I []) (hdecl : a.decl ∈ decls)
    (hsome : ∀ decl ∈ decls, ∃ c, conjectures decl = some c)
    (hargs : ∀ t ∈ a.args, ∀ f ∈ t.symbols, f ∉ decls) :
    truthOn T conjectures (extractDatapoint eval a) =
      some (Term.eval T (withConjectures T conjectures decls I) (.app a.decl a.args) []).truth := by
  obtain ⟨c, hc⟩ := hsome a.decl hdecl
  have hvalues : a.args.map eval =
      a.args.map fun t => t.eval T (withConjectures T conjectures decls I) [] := by
    refine List.map_congr_left fun t ht => ?_
    rw [heval]
    refine Term.eval_congr fun f hf => ?_
    rw [withConjectures, if_neg (hargs t ht f hf)]
  rw [truthOn, extractDatapoint, Term.eval_app, ← hvalues, withConjectures, if_pos hdecl, hc]
  rfl

/-- Every counterexample for the clause is genuine, for all conjectures. -/
def CounterexamplesGenuine (T : Theory α) (check : Solver α) (chc : ConstraintedHornClause) :
    Prop :=
  ∀ conjectures : ConjectureMap, (∀ f c, conjectures f = some c → c.WellFormed) →
    ∀ ce, checkChc check chc conjectures = .ok (some ce) → Genuine T conjectures ce

/-- The counterexamples for an accepted clause are genuine if the collected applications
    are conjuncts whose arguments are free of predicates. -/
theorem counterexamples_genuine (T : Theory α) (check : Solver α) (hcheck : check.Correct T)
    (fp : Fixedpoint) (p : Problem) (hparse : parse fp = .ok p) (chc : ConstraintedHornClause)
    (hchc : chc ∈ p.chcs) (hcond : CollectsConjuncts chc) : CounterexamplesGenuine T check chc := by
  intro conjectures hwf ce h
  obtain ⟨e, he, ⟨_, hnone⟩ | ⟨eval, hsat, hsome⟩⟩ := checkChc_cases h
  · cases hnone
  obtain ⟨I, _, htrue, heval⟩ := hcheck.sat _ _ hsat
  have hviolated : (Term.eval T (withConjectures T conjectures chc.uninterpretedPredicates I)
      chc.expr []).truth = false := by
    rw [← eval_substituteAll hwf he]
    simpa [Op.eval] using htrue
  have hdefined := substituteAll_some he
  have hvalue : ∀ a ∈ chc.predicatesInLhs ++ chc.predicatesInRhs,
      a.decl ∈ chc.uninterpretedPredicates →
      truthOn T conjectures (extractDatapoint eval a) = some (Term.eval T
        (withConjectures T conjectures chc.uninterpretedPredicates I) (.app a.decl a.args)
        []).truth :=
    fun a ha hdecl => truthOn_extractDatapoint heval hdecl hdefined (hcond.arguments a ha)
  rw [Option.some.inj hsome]
  obtain ⟨hlhs, hrhs⟩ := (parse_clause hparse hchc).violated hcond hviolated
  refine ⟨fun d hd => ?_, fun d hd => ?_⟩
  · obtain ⟨a, ha, rfl⟩ := List.mem_map.mp hd
    obtain ⟨hdecl, ht⟩ := hlhs a ha
    rw [hvalue a (List.mem_append_left _ ha) hdecl, ht]
  · obtain ⟨a, ha, rfl⟩ := List.mem_map.mp hd
    obtain ⟨hdecl, hf⟩ := hrhs a ha
    rw [hvalue a (List.mem_append_right _ ha) hdecl, hf]

/-! ## A body with a disjunction -/

/-- A solver that finds the model `zeros` of one formula. -/
noncomputable def satOn (φ₀ : Term) : Solver Unit := fun φ =>
  if φ = φ₀ then .sat fun t => t.eval arithmetic zeros [] else .unknown

theorem satOn_correct {φ₀ : Term} (h : (φ₀.eval arithmetic zeros []).truth = true) :
    Solver.Correct arithmetic (satOn φ₀) where
  unsat φ hres := by
    unfold satOn at hres
    split_ifs at hres
  sat φ eval hres := by
    unfold satOn at hres
    split_ifs at hres with hφ
    refine ⟨zeros, zeros_sorted, hφ ▸ h, fun t => ?_⟩
    rw [← CheckResult.sat.inj hres]

def inv : Decl := ⟨.str "inv", [.int], .bool⟩

def exit : Decl := ⟨.str "exit", [.int], .bool⟩

/-- `0 <= x`. -/
def nonnegative (x : Term) : Term := .op (.other "<=") [.op (.int 0) [], x]

/-- The constant for the quantified variable. -/
def x₀ : Term := .app ⟨.int 0, [], .int⟩ []

/-- The rule `body → exit(x)` for a body over the variable `x`. -/
def exitRule (body : Term → Term) (hbody : (body (.var 0)).wellFormed = true) : Fixedpoint where
  rules := [.quantifier .all [.int] (.op .implies [body (.var 0), .app exit [.var 0]])]
  queries := []
  wellFormed := by
    simp only [List.append_nil, List.mem_singleton, forall_eq]
    simp [Term.wellFormed, Term.wellFormedList_eq, hbody, exit, Decl.arity]
  rules_formulas := by simp [isFormula]

/-- The clause for such a rule. -/
def exitClause (body : Term → Term) : ConstraintedHornClause where
  expr := .op .implies [body x₀, .app exit [x₀]]
  uninterpretedPredicates := [exit, inv]
  predicatesInLhs := [⟨inv, [x₀]⟩]
  predicatesInRhs := [⟨exit, [x₀]⟩]

/-- `inv(x) ∧ 0 <= x`. -/
def conjunction (x : Term) : Term := .op .and [.app inv [x], nonnegative x]

/-- `(inv(x) ∨ 0 <= x) ∧ 0 <= x`. -/
def disjunction (x : Term) : Term :=
  .op .and [.op .or [.app inv [x], nonnegative x], nonnegative x]

theorem parse_conjunction :
    parse (exitRule conjunction rfl) = .ok ⟨[exit, inv], [exitClause conjunction]⟩ := rfl

theorem parse_disjunction :
    parse (exitRule disjunction rfl) = .ok ⟨[exit, inv], [exitClause disjunction]⟩ := rfl

/-- Conjectures that are true or false everywhere. -/
def constantConjectures (b : Decl → Bool) : ConjectureMap := fun f =>
  some ⟨.op (.bool (b f)) [], [⟨.str "x", [], .int⟩]⟩

theorem constantConjectures_wellFormed (b : Decl → Bool) (f : Decl) (c : Conjecture)
    (h : constantConjectures b f = some c) : c.WellFormed := by
  rw [← Option.some.inj h]
  rfl

/-- The counterexample at `x = 0`. -/
def atZero : HornCounterexample Unit := ⟨[⟨inv, [.int 0]⟩], [⟨exit, [.int 0]⟩]⟩

theorem checkChc_exitClause {body : Term → Term} {conjectures : ConjectureMap} {e : Term}
    (hsub : substituteAll conjectures [exit, inv] (exitClause body).expr = .ok e) :
    checkChc (satOn (.op .not [e])) (exitClause body) conjectures = .ok (some atZero) := by
  have hlist : (exitClause body).uninterpretedPredicates = [exit, inv] := rfl
  have hsat : satOn (.op .not [e]) (.op .not [e]) = .sat fun t => t.eval arithmetic zeros [] :=
    if_pos rfl
  simp only [checkChc, hlist, hsub, bind, Except.bind, hsat]
  simp [exitClause, extractDatapoint, x₀, zeros, atZero]
  rfl

/-- The clause for `conjunction` if `inv` is true and `exit` is false. -/
def substitutedConjunction : Term :=
  .op .implies [.op .and [.op (.bool true) [], nonnegative x₀], .op (.bool false) []]

theorem conjunction_collected : CollectsConjuncts (exitClause conjunction) where
  conjuncts lhs rhs h a ha := by
    obtain ⟨rfl, _⟩ : conjunction x₀ = lhs ∧ Term.app exit [x₀] = rhs := by
      simpa [exitClause] using h
    simpa [conjunction, nonnegative, conjuncts, conjuncts.conjunctsList, exitClause] using ha
  arguments a ha t ht f hf := by
    have hx : t = x₀ := by
      simp only [exitClause, List.cons_append, List.nil_append, List.mem_cons, List.not_mem_nil,
        or_false] at ha
      rcases ha with rfl | rfl <;> simpa using ht
    rw [hx, x₀, Term.mem_symbols_app] at hf
    have hname : f = ⟨.int 0, [], .int⟩ := by simpa using hf
    rw [hname]
    decide

theorem counterexamples_genuine_conjunction :
    checkChc (satOn (.op .not [substitutedConjunction])) (exitClause conjunction)
      (constantConjectures fun f => f = inv) = .ok (some atZero) ∧
    Genuine arithmetic (constantConjectures fun f => f = inv) atZero := by
  have hrun : checkChc (satOn (.op .not [substitutedConjunction])) (exitClause conjunction)
      (constantConjectures fun f => f = inv) = .ok (some atZero) := checkChc_exitClause rfl
  have hcorrect : Solver.Correct arithmetic (satOn (.op .not [substitutedConjunction])) :=
    satOn_correct (by simp [substitutedConjunction, nonnegative, x₀, Op.eval, arithmetic, zeros])
  exact ⟨hrun, counterexamples_genuine arithmetic _ hcorrect _ _ parse_conjunction
    (exitClause conjunction) (by simp) conjunction_collected _ (constantConjectures_wellFormed _) _
    hrun⟩

/-- The clause for `disjunction` if `inv` and `exit` are false. -/
def substitutedDisjunction : Term :=
  .op .implies [.op .and [.op .or [.op (.bool false) [], nonnegative x₀], nonnegative x₀],
    .op (.bool false) []]

/-- For an accepted rule with a disjunction in its body, the counterexample claims that
    `inv` holds at zero although the conjecture for it is false. -/
theorem counterexample_not_genuine :
    parse (exitRule disjunction rfl) = .ok ⟨[exit, inv], [exitClause disjunction]⟩ ∧
    Solver.Correct arithmetic (satOn (.op .not [substitutedDisjunction])) ∧
    ¬ CounterexamplesGenuine arithmetic (satOn (.op .not [substitutedDisjunction]))
      (exitClause disjunction) := by
  refine ⟨parse_disjunction, satOn_correct ?_, fun h => ?_⟩
  · simp [substitutedDisjunction, nonnegative, x₀, Op.eval, arithmetic, zeros]
  · have hgenuine := h (constantConjectures fun _ => false) (constantConjectures_wellFormed _)
      atZero (checkChc_exitClause rfl)
    have htrue := hgenuine.1 ⟨inv, [.int 0]⟩ List.mem_cons_self
    simp [truthOn, constantConjectures, Conjecture.value, Op.eval] at htrue

end HiceDt.Smt
