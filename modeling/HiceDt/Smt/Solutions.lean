import HiceDt.Smt.Progress

/-!
# Solutions and the loop of `learn2`

The learner may return a conjecture that mentions the variables of another relation. In
`check_chc` such a variable is one more constant of the formula. The results here hold for
these conjectures, too.

Results:

* `eval_substituteAll_simultaneous`: the meaning of the substituted clause.
* `learn2_keeps_solutions`: every recorded counterexample holds in every solution.
* `learn2_solves`: when the loop ends, the last conjectures are a solution.
-/

namespace HiceDt.Smt

open HiceDt Loop Fol

variable {α : Type} {T : Theory α} {I J : Interp α} {check : Solver α} {p : Problem}
  {chc : ConstraintedHornClause} {conjectures : ConjectureMap} {ce : HornCounterexample α}
  {tried : List ConjectureMap} {s s' : LearnState α} {fp : Fixedpoint}

/-! ## Conjectures over variables of any relation -/

/-- The expression of the conjecture is closed, and its functions are constants with a
    name. -/
structure Conjecture.OverVariables (c : Conjecture) : Prop where
  closed : c.expr.closed 0 = true
  constants : ∀ f ∈ c.expr.symbols, f.arity = 0 ∧ ∃ s, f.name = .str s

/-- The answers of a learner: conjectures for all relations, over the variables. -/
structure OverVariables (p : Problem) (conjectures : ConjectureMap) : Prop where
  covers : Covers p conjectures
  overVars : ∀ f c, conjectures f = some c → c.OverVariables

/-- The clause in which all predicates are substituted. -/
theorem eval_substituteAll_simultaneous
    (hvars : ∀ f c, conjectures f = some c → c.OverVariables) {decls : List Decl} :
    (∀ decl ∈ decls, 0 < decl.arity) → ∀ {e e' : Term}, substituteAll conjectures decls e = .ok e' →
      e'.eval T I [] = e.eval T (simultaneous T conjectures decls I) [] := by
  induction decls with
  | nil =>
    intro _ e e' h
    rw [← Except.ok.inj h]
    exact Term.eval_congr fun f _ => (simultaneous_of_not_mem (by simp)).symm
  | cons decl rest ih =>
    intro hpos e e' h
    obtain ⟨c, hc, h⟩ := bind_ok.mp h
    obtain ⟨_, _, h⟩ := bind_ok.mp h
    obtain ⟨e₁, he₁, h⟩ := bind_ok.mp h
    obtain ⟨_, _, he₁⟩ := bind_ok.mp he₁
    have hsome := conjectureAt_ok.mp hc
    have hover := hvars decl c hsome
    have hfresh : ∀ g ∈ rest, g ∉ c.expr.symbols := by
      intro g hg hmem
      have h0 := (hover.constants g hmem).1
      have := hpos g (List.mem_cons_of_mem _ hg)
      omega
    rw [ih (fun d hd => hpos d (List.mem_cons_of_mem _ hd)) h,
      eval_substituteLoop hover.closed he₁, update_simultaneous hsome hfresh]

/-! ## Counterexamples and solutions -/

/-- The solution with the values of `I` for the other functions. -/
def withSolution (p : Problem) (I J : Interp α) : Interp α := fun f =>
  if f ∈ p.relations then I f else J f

theorem withSolution_sorted (hI : I.Sorted) (hJ : J.Sorted) : (withSolution p I J).Sorted := by
  intro f vs
  unfold withSolution
  split_ifs
  · exact hI f vs
  · exact hJ f vs

/-- A counterexample for a clause holds in every solution of the problem. -/
theorem solution_holds (hcheck : check.Correct T) (hparse : parse fp = .ok p) (hchc : chc ∈ p.chcs)
    (hshape : HornClause chc.expr) (hvars : ∀ f c, conjectures f = some c → c.OverVariables)
    (hrun : checkChc check chc conjectures = .ok (some ce)) (hI : p.Solution T I) :
    ce.Holds fun d => (I d.predicate d.values).truth = true := by
  have h : HornShaped chc := ⟨parse_clause hparse hchc, hshape⟩
  have hrel := parse_predicates hparse hchc
  have harity := parse_arity hparse
  obtain ⟨e, he, ⟨_, hnone⟩ | ⟨eval, hsat, hsome⟩⟩ := checkChc_cases hrun
  · cases hnone
  obtain ⟨K, hK, htrue, heval⟩ := hcheck.sat _ _ hsat
  obtain rfl : eval = fun t => t.eval T K [] := funext heval
  obtain rfl := Option.some.inj hsome
  -- the model violates the clause for the conjectures, and the solution satisfies it
  have hviolated : (chc.expr.eval T (simultaneous T conjectures chc.uninterpretedPredicates K)
      []).truth = false := by
    rw [← eval_substituteAll_simultaneous hvars (fun _ hd => h.proper.arity hd) he]
    simpa [Op.eval] using htrue
  have hsolved := hI.chcs chc hchc (withSolution p I K) (withSolution_sorted hI.sorted hK)
    fun r hr => if_pos hr
  have hconstants : ∀ f, f.arity = 0 →
      simultaneous T conjectures chc.uninterpretedPredicates K f = withSolution p I K f := by
    intro f hf
    have hnot : f ∉ p.relations := fun hmem => absurd hf (harity f hmem).ne'
    rw [simultaneous_of_not_mem fun hmem => hnot (hrel f hmem), withSolution, if_neg hnot]
  have hvalue : ∀ a ∈ chc.predicatesInLhs ++ chc.predicatesInRhs,
      Term.eval T (withSolution p I K) (.app a.decl a.args) [] =
        I a.decl (a.args.map fun t => t.eval T K []) := by
    intro a ha
    have hargs : a.args.map (fun t => t.eval T (withSolution p I K) []) =
        a.args.map fun t => t.eval T K [] := by
      refine List.map_congr_left fun t ht => (h.proper.arguments a ha t ht).eval_eq (fun f hf => ?_)
        []
      rw [withSolution, if_neg fun hmem => absurd hf (harity f hmem).ne']
    rw [Term.eval_app, hargs, withSolution,
      if_pos (hrel _ ((h.proper.listed _).mpr ⟨a, ha, rfl⟩))]
  intro hlhs
  obtain ⟨a, ha, hrhs⟩ := h.implication hconstants hviolated hsolved fun a ha => by
    rw [hvalue a (List.mem_append_left _ ha)]
    exact hlhs _ (List.mem_map_of_mem ha)
  rw [hvalue a (List.mem_append_right _ ha)] at hrhs
  exact ⟨_, List.mem_map_of_mem ha, hrhs⟩

/-- The counterexamples of an iteration. -/
theorem iteration_counterexamples (hinv : LearnInv check p s)
    (hrun : iteration check conjectures s = .ok s') (hce : ce ∈ s'.counterexamples) :
    ce ∈ s.counterexamples ∨ ∃ chc ∈ p.chcs, checkChc check chc conjectures = .ok (some ce) := by
  obtain ⟨u, hu, hrun⟩ := bind_ok.mp hrun
  obtain ⟨v, hv, hrun⟩ := bind_ok.mp hrun
  rw [← Except.ok.inj hrun] at hce
  have hchecked : ∀ chc ∈ p.chcs,
      recheck check s.previousConjectures conjectures chc = .ok (.unsatisfied ce) →
        ∃ chc ∈ p.chcs, checkChc check chc conjectures = .ok (some ce) := by
    intro chc hchc hrec
    rcases recheck_cases hrec with ⟨hv, _⟩ | ⟨hv, _⟩ | ⟨ce', hv, hcheck⟩
    · cases hv
    · cases hv
    · cases hv
      exact ⟨chc, hchc, hcheck⟩
  refine (List.mem_append.mp hce).imp_right fun hnew => ?_
  rcases List.mem_append.mp hnew with hnew | hnew
  · obtain ⟨chc, hchc, hrec⟩ := (passLoop_counterexamples hu ce).mp hnew
    exact hchecked chc (hinv.perm.subset (List.mem_append_right _ hchc)) hrec
  · obtain ⟨chc, hchc, hrec⟩ := (passLoop_counterexamples hv ce).mp hnew
    exact hchecked chc (hinv.perm.subset (List.mem_append_left _ hchc)) hrec

/-- Every recorded counterexample was found for a clause. -/
theorem Head.found {answers : List (HornCounterexample α) → ConjectureMap → Prop}
    (hcovers : ∀ ces conjectures, answers ces conjectures → Covers p conjectures)
    (h : Head answers check p tried s) (hce : ce ∈ s.counterexamples) :
    ∃ chc ∈ p.chcs, ∃ conjectures, checkChc check chc conjectures = .ok (some ce) := by
  induction h with
  | start => simp [LearnState.initial] at hce
  | next hhead _ _ hrun ih =>
    rcases iteration_counterexamples (hhead.loopHead hcovers).inv hrun hce with hold
      | ⟨chc, hchc, hcex⟩
    · exact ih hold
    · exact ⟨chc, hchc, _, hcex⟩

theorem Head.overVariables (h : Head (fun _ => OverVariables p) check p tried s) :
    LoopHead check p s :=
  h.loopHead fun _ _ hanswer => hanswer.covers

theorem Head.keeps_solutions (hcheck : check.Correct T) (hparse : parse fp = .ok p)
    (hshape : ∀ chc ∈ p.chcs, HornClause chc.expr) (hI : p.Solution T I)
    (hhead : Head (fun _ => OverVariables p) check p tried s) :
    ∀ ce ∈ s.counterexamples, ce.Holds fun d => (I d.predicate d.values).truth = true := by
  induction hhead with
  | start => simp [LearnState.initial]
  | next hhead _ hanswer hrun ih =>
    intro ce hce
    rcases iteration_counterexamples hhead.overVariables.inv hrun hce with hce | ⟨chc, hchc, hcex⟩
    · exact ih ce hce
    · exact solution_holds hcheck hparse hchc (hshape chc hchc) hanswer.overVars hcex hI

/-- Every counterexample that is recorded in a run holds in every solution of the problem,
    whatever the learner answers. -/
theorem learn2_keeps_solutions (T : Theory α) (check : Solver α) (hcheck : check.Correct T)
    (fp : Fixedpoint) (p : Problem) (hparse : parse fp = .ok p)
    (hshape : ∀ chc ∈ p.chcs, HornClause chc.expr) (I : Interp α) (hI : p.Solution T I)
    (tried : List ConjectureMap) (s : LearnState α)
    (hhead : Head (fun _ => OverVariables p) check p tried s) :
    ∀ ce ∈ s.counterexamples, ce.Holds fun d => (I d.predicate d.values).truth = true :=
  hhead.keeps_solutions hcheck hparse hshape hI

/-! ## The end of the loop -/

/-- `J` with the values of `I` for the constants with a name. -/
def withVariables (I J : Interp α) : Interp α := fun f vs =>
  match f.name with
  | .str _ => if f.arity = 0 then I f vs else J f vs
  | .int _ => J f vs

theorem withVariables_sorted (hI : I.Sorted) (hJ : J.Sorted) : (withVariables I J).Sorted := by
  intro f vs
  unfold withVariables
  split
  · split_ifs
    · exact hI f vs
    · exact hJ f vs
  · exact hJ f vs

/-- The conjectures are formulas: their values are Boolean for all arguments. -/
def Formulas (T : Theory α) (conjectures : ConjectureMap) : Prop :=
  ∀ f c, conjectures f = some c → ∀ (I : Interp α) vs, (c.meaning T I vs).sort = .bool

/-- Conjectures that pass all checks give a solution: the variables of other relations get
    fixed values. -/
theorem solution_of_checks (hcheck : check.Correct T) (hparse : parse fp = .ok p)
    (hvars : OverVariables p conjectures) (hformulas : Formulas T conjectures)
    (hrange : ∀ r ∈ p.relations, r.range = .bool) (hI : I.Sorted)
    (hpass : ∀ chc ∈ p.chcs, checkChc check chc conjectures = .ok none) :
    p.Solution T (simultaneous T conjectures p.relations I) := by
  refine ⟨fun f vs => ?_, fun chc hchc J hJ hagree => ?_⟩
  · by_cases hf : f ∈ p.relations
    · obtain ⟨c, hc⟩ := Option.isSome_iff_exists.mp (hvars.covers f hf)
      rw [simultaneous_of_mem hf hc, hformulas f c hc, hrange f hf]
    · rw [simultaneous_of_not_mem hf]
      exact hI f vs
  · obtain ⟨e, he, ⟨hunsat, _⟩ | ⟨eval, _, hsome⟩⟩ := checkChc_cases (hpass chc hchc)
    swap
    · cases hsome
    have htrue := hcheck.unsat _ hunsat (withVariables I J) (withVariables_sorted hI hJ)
    rw [Term.eval_op, List.map_singleton, eval_substituteAll_simultaneous hvars.overVars
      (fun d hd => (parse_lists hparse hchc d hd).arity) he] at htrue
    rw [show chc.expr.eval T J [] = chc.expr.eval T (simultaneous T conjectures
      chc.uninterpretedPredicates (withVariables I J)) [] from Term.eval_congr fun f hf => ?_]
    · simpa [Op.eval] using htrue
    by_cases hlisted : f ∈ chc.uninterpretedPredicates
    · have hrel := parse_predicates hparse hchc f hlisted
      obtain ⟨c, hc⟩ := Option.isSome_iff_exists.mp (hvars.covers f hrel)
      rw [hagree f hrel, simultaneous_of_mem hrel hc, simultaneous_of_mem hlisted hc]
      refine meaning_congr fun g hg => ?_
      obtain ⟨h0, s, hs⟩ := (hvars.overVars f c hc).constants g hg
      funext vs
      rw [withVariables, hs]
      exact (if_pos h0).symm
    · rw [simultaneous_of_not_mem hlisted]
      funext vs
      rcases parse_symbols hparse hchc hf with ⟨hpos, _⟩ | ⟨_, n, hn⟩
      · unfold withVariables
        split
        · rw [if_neg hpos.ne']
        · rfl
      · rw [withVariables, hn]

/-- The previous conjectures are an answer of the learner unless no iteration was
    made. -/
theorem Head.previous {answers : List (HornCounterexample α) → ConjectureMap → Prop}
    (h : Head answers check p tried s) :
    s = .initial p ∨ ∃ ces, answers ces s.previousConjectures := by
  cases h with
  | start => exact .inl rfl
  | next _ _ hanswer hrun =>
    obtain ⟨u, _, hrun⟩ := bind_ok.mp hrun
    obtain ⟨v, _, hrun⟩ := bind_ok.mp hrun
    rw [← Except.ok.inj hrun]
    exact .inr ⟨_, hanswer⟩

/-- Fixed values for all functions. -/
def defaults [Inhabited α] : Interp α := fun f _ =>
  match f.range with
  | .bool => .bool false
  | .int => .int 0
  | .other s => .other s default

theorem defaults_sorted [Inhabited α] : (defaults : Interp α).Sorted := by
  intro f vs
  unfold defaults
  cases f.range <;> rfl

/-- With the values of `J` for the other functions, the last conjectures are a solution. -/
theorem Head.solves (hcheck : check.Correct T) (hparse : parse fp = .ok p)
    (hrange : ∀ r ∈ p.relations, r.range = .bool)
    (hhead : Head (fun _ c => OverVariables p c ∧ Formulas T c) check p tried s)
    (hexit : s.unsatisfiedChcs = []) (hJ : J.Sorted) :
    p.Solution T (simultaneous T s.previousConjectures p.relations J) := by
  have hinv := (hhead.loopHead fun _ _ hanswer => hanswer.1.covers).inv
  have hpass : ∀ chc ∈ p.chcs, checkChc check chc s.previousConjectures = .ok none := by
    intro chc hchc
    have hperm := hinv.perm
    rw [hexit, List.append_nil] at hperm
    exact hinv.passes chc (hperm.mem_iff.mpr hchc)
  rcases hhead.previous with rfl | ⟨_, hvars, hformulas⟩
  · -- no clause, and no conjecture for a relation
    have hnone : simultaneous T (LearnState.initial p : LearnState α).previousConjectures
        p.relations J = J := by
      funext f
      simp [simultaneous, LearnState.initial]
    rw [hnone]
    refine ⟨hJ, fun chc hchc => ?_⟩
    rw [show p.chcs = [] from hexit] at hchc
    simp at hchc
  · exact solution_of_checks hcheck hparse hvars hformulas hrange hJ hpass

/-- With any values for the other functions, the conjectures are a solution of the problem,
    and one of the clause system unless `parse` merges relations or keeps a clause with
    `verifier.error`. -/
def SolvedBy (T : Theory α) (fp : Fixedpoint) (p : Problem) (conjectures : ConjectureMap) : Prop :=
  ∀ J : Interp α, J.Sorted → p.Solution T (simultaneous T conjectures p.relations J) ∧
    (fp.Unambiguous → fp.Solution T (lower (simultaneous T conjectures p.relations J)))

theorem SolvedBy.solvable [Inhabited α] (h : SolvedBy T fp p conjectures) :
    p.Solvable T ∧ (fp.Unambiguous → fp.Solvable T) := by
  obtain ⟨hproblem, hsystem⟩ := h defaults defaults_sorted
  exact ⟨⟨_, hproblem⟩, fun hcond => ⟨_, hsystem hcond⟩⟩

theorem Head.solvedBy (hcheck : check.Correct T) (hparse : parse fp = .ok p)
    (hrange : ∀ r ∈ p.relations, r.range = .bool)
    (hhead : Head (fun _ c => OverVariables p c ∧ Formulas T c) check p tried s)
    (hexit : s.unsatisfiedChcs = []) : SolvedBy T fp p s.previousConjectures := by
  intro J hJ
  have hsolves := hhead.solves hcheck hparse hrange hexit hJ
  exact ⟨hsolves, hsolves.lower hparse⟩

/-- When the loop ends, the last conjectures are a solution of the problem and of the clause
    system, so that these are solvable. -/
theorem learn2_solves [Inhabited α] (T : Theory α) (check : Solver α) (hcheck : check.Correct T)
    (fp : Fixedpoint) (p : Problem) (hparse : parse fp = .ok p)
    (hrange : ∀ r ∈ p.relations, r.range = .bool) (tried : List ConjectureMap) (s : LearnState α)
    (hhead : Head (fun _ c => OverVariables p c ∧ Formulas T c) check p tried s)
    (hexit : s.unsatisfiedChcs = []) :
    SolvedBy T fp p s.previousConjectures ∧
      p.Solvable T ∧ (fp.Unambiguous → fp.Solvable T) := by
  have hsolved := hhead.solvedBy hcheck hparse hrange hexit
  exact ⟨hsolved, hsolved.solvable⟩

/-! ## The fact `flag`, solved -/

theorem overVariables_flagConjecture (b : Bool) :
    OverVariables ⟨[flag], [flagFact]⟩ (flagConjecture b) := by
  refine ⟨covers_flagConjecture b, fun f c hc => ?_⟩
  unfold flagConjecture at hc
  split_ifs at hc
  rw [← Option.some.inj hc]
  exact ⟨rfl, by simp⟩

theorem formulas_flagConjecture (b : Bool) : Formulas arithmetic (flagConjecture b) := by
  intro f c hc I vs
  unfold flagConjecture at hc
  split_ifs at hc
  rw [← Option.some.inj hc]
  simp [Conjecture.meaning, Op.eval, Val.sort]

/-- The state after the conjecture true. -/
def flagSolved : LearnState Unit := ⟨[flagFact], [], flagConjecture true, [flagTrue]⟩

theorem iteration_flagSolved :
    iteration constantSolver (flagConjecture true) flagRefuted = .ok flagSolved := by
  have hcheck : checkChc constantSolver flagFact (flagConjecture true) = .ok none := by
    have hsub : substituteAll (flagConjecture true) [flag] flagFact.expr =
      .ok (.op (.bool true) []) := rfl
    have hunsat : constantSolver (.op .not [.op (.bool true) []]) = .unsat := by
      simp [constantSolver]
    rw [checkChc, show flagFact.uninterpretedPredicates = [flag] from rfl, hsub]
    simp [bind, Except.bind, hunsat, pure, Except.pure]
  have hrecheck : recheck constantSolver (flagConjecture false) (flagConjecture true) flagFact =
      .ok .satisfied := by
    rw [recheck, hcheck]
    rfl
  rw [iteration, show flagRefuted = ⟨[], [flagFact], flagConjecture false, [flagTrue]⟩ from rfl]
  simp only [checkUnsatisfied, checkSatisfied, passLoop, hrecheck]
  rfl

/-- The relation holds everywhere. -/
def flagHolds : Interp Unit := fun f vs => if f = flag then .bool true else zeros f vs

theorem flagHolds_solution : Problem.Solution arithmetic ⟨[flag], [flagFact]⟩ flagHolds where
  sorted f vs := by
    unfold flagHolds
    split_ifs with hf
    · rw [hf]
      rfl
    · exact zeros_sorted f vs
  chcs chc hchc J _ hagree := by
    rw [List.mem_singleton.mp hchc]
    simp [flagFact, hagree flag (by simp), flagHolds]

theorem learn2_keeps_solutions_flagFact :
    flagTrue.Holds fun d => (flagHolds d.predicate d.values).truth = true := by
  refine learn2_keeps_solutions arithmetic constantSolver constantSolver_correct flagRule _
    parse_flagRule ?_ flagHolds flagHolds_solution _ _ (.next .start (by simp [LearnState.initial])
      (overVariables_flagConjecture false) iteration_flagFact) _ (List.mem_singleton_self _)
  intro chc hchc
  rw [List.mem_singleton.mp hchc]
  exact .fact Nat.one_pos (by simp [Constraint])

theorem learn2_solves_flagFact :
    SolvedBy arithmetic flagRule ⟨[flag], [flagFact]⟩ (flagConjecture true) ∧
      Problem.Solvable arithmetic ⟨[flag], [flagFact]⟩ ∧
      (flagRule.Unambiguous → flagRule.Solvable arithmetic) := by
  refine learn2_solves arithmetic constantSolver constantSolver_correct flagRule _ parse_flagRule ?_
    _ flagSolved (.next (.next .start (by simp [LearnState.initial])
      ⟨overVariables_flagConjecture false, formulas_flagConjecture false⟩ iteration_flagFact)
      (by simp [flagRefuted]) ⟨overVariables_flagConjecture true, formulas_flagConjecture true⟩
      iteration_flagSolved) rfl
  intro r hr
  rw [List.mem_singleton.mp hr]
  rfl

end HiceDt.Smt
