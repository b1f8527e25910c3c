import Mathlib.Data.List.Perm.Basic
import HiceDt.Lib.FirstOrder
import HiceDt.Lib.Loop
import HiceDt.Learner.DecisionTree

/-!
# Checking constrained Horn clauses

Model of `z3_helper::substitute` (`chc_verifier/include/z3_helper.h`), of
`chc_verifier::check_chc` and `naive_check` (`chc_verifier/include/chc_verifier.h`) and
of the loop of `learn2` (`chc_verifier/src/chc_verifier.cpp`, lines 87–270). The solver
is a parameter: it answers on every formula, and its models are given by what
`model.eval` yields.

Results:

* `checkChc_congr`: the verdict depends on the conjectures of the listed predicates.
* `iteration_keeps`: what one iteration of `learn2` preserves.
* `learn2_iff`: when the loop agrees with `naive_check`.
-/

namespace HiceDt.Smt

open HiceDt Loop Fol

variable {α : Type}

/-! ## Data -/

/-- `conjecture`; `vars` is the field `variables`, which holds constants. -/
structure Conjecture where
  expr : Term
  vars : List Decl
deriving DecidableEq, Repr

/-- `std::unordered_map<z3::func_decl, conjecture>`. -/
abbrev ConjectureMap := Decl → Option Conjecture

/-- An element of `predicates_in_lhs` or `predicates_in_rhs`: the application of a
    predicate. -/
structure Predicate where
  decl : Decl
  args : List Term
deriving DecidableEq, Repr

/-- `constrainted_horn_clause`. -/
structure ConstraintedHornClause where
  expr : Term
  uninterpretedPredicates : List Decl
  predicatesInLhs : List Predicate
  predicatesInRhs : List Predicate
deriving DecidableEq, Repr

/-- `problem`. -/
structure Problem where
  relations : List Decl
  chcs : List ConstraintedHornClause
deriving Repr

/-- `datapoint`. -/
structure TeacherDatapoint (α : Type) where
  predicate : Decl
  values : List (Val α)

/-- `horn_counterexample`. -/
structure HornCounterexample (α : Type) where
  lhs : List (TeacherDatapoint α)
  rhs : List (TeacherDatapoint α)

/-- The answer of `solver.check ()`; a model is what `model.eval` yields with
    completion. -/
inductive CheckResult (α : Type) where
  | unsat
  | unknown
  | sat (eval : Term → Val α)

/-- `solver.add (φ); solver.check ()`. -/
abbrev Solver (α : Type) := Term → CheckResult α

/-! ## Substitution -/

/-- The pairs of `variables` and `dest`. -/
def bindings : List Decl → List Term → Decl → Option Term
  | x :: xs, t :: ts, f => if f = x then some t else bindings xs ts f
  | _, _, _ => none

/-- The worklist of `z3_helper::substitute`, which processes the arguments before
    the application; it expects applications only. -/
def substituteLoop (f : Decl) (h : Conjecture) : Term → Except Error Term
  | .op o args => do
    let dest ← substituteArgs args
    return .op o dest
  | .app g args => do
    let dest ← substituteArgs args
    if g = f then do
      assert (h.vars.length = dest.length)
      return h.expr.replaceConsts (bindings h.vars dest)
    else return .app g dest
  | .var _ => .error .assertionFailure
  | .quantifier _ _ _ => .error .assertionFailure
where
  /-- `dest`: the processed arguments. -/
  substituteArgs : List Term → Except Error (List Term)
    | [] => .ok []
    | t :: ts => do
      let u ← substituteLoop f h t
      let us ← substituteArgs ts
      return u :: us

/-- `z3_helper::substitute`. -/
def substitute (e : Term) (f : Decl) (h : Conjecture) : Except Error Term := do
  assert (h.vars.length = f.arity)
  substituteLoop f h e

/-- `conjectures.at (decl)`. -/
def conjectureAt (conjectures : ConjectureMap) (decl : Decl) : Except Error Conjecture :=
  match conjectures decl with
  | some c => .ok c
  | none => .error (.runtimeError "out_of_range")

/-- The loop over the predicates of a clause (`chc_verifier.h`, lines 188–203). -/
def substituteAll (conjectures : ConjectureMap) : List Decl → Term → Except Error Term
  | [], chcExpr => .ok chcExpr
  | decl :: rest, chcExpr => do
    let c ← conjectureAt conjectures decl
    assert (c.vars.length = decl.arity)
    let chcExpr ← substitute chcExpr decl c
    substituteAll conjectures rest chcExpr

/-! ## Checks -/

/-- `extract_datapoint`. -/
def extractDatapoint (eval : Term → Val α) (pred : Predicate) : TeacherDatapoint α :=
  ⟨pred.decl, pred.args.map eval⟩

/-- `check_chc`. -/
def checkChc (check : Solver α) (chc : ConstraintedHornClause) (conjectures : ConjectureMap) :
    Except Error (Option (HornCounterexample α)) := do
  let chcExpr ← substituteAll conjectures chc.uninterpretedPredicates chc.expr
  match check (.op .not [chcExpr]) with
  | .unsat => return none
  | .unknown => .error (.runtimeError "Solver reported UNKNOWN")
  | .sat eval => return some ⟨chc.predicatesInLhs.map (extractDatapoint eval),
      chc.predicatesInRhs.map (extractDatapoint eval)⟩

/-- The loop of `naive_check` over the clauses. -/
def checkChcs (check : Solver α) (conjectures : ConjectureMap) :
    List ConstraintedHornClause → Except Error (Option (HornCounterexample α))
  | [] => .ok none
  | chc :: rest => do
    match ← checkChc check chc conjectures with
    | some counterexample => return some counterexample
    | none => checkChcs check conjectures rest

/-- `naive_check`. -/
def naiveCheck (check : Solver α) (p : Problem) (conjectures : ConjectureMap) :
    Except Error (Option (HornCounterexample α)) := do
  assert (p.relations.all fun r => (conjectures r).isSome)
  checkChcs check conjectures p.chcs

/-! ## The loop of `learn2` -/

/-- `changed.at (decl)`. -/
def changedAt (previous conjectures : ConjectureMap) (decl : Decl) : Except Error Bool := do
  let c ← conjectureAt conjectures decl
  return previous decl ≠ some c

/-- `has_changed` for the predicates of a clause. -/
def hasChanged (previous conjectures : ConjectureMap) : List Decl → Except Error Bool
  | [] => .ok false
  | decl :: rest => do
    match ← changedAt previous conjectures decl with
    | true => return true
    | false => hasChanged previous conjectures rest

/-- What an iteration finds out about a clause. -/
inductive Verdict (α : Type) where
  | unchanged
  | satisfied
  | unsatisfied (counterexample : HornCounterexample α)

/-- The check of a clause if some conjecture changed. -/
def recheck (check : Solver α) (previous conjectures : ConjectureMap)
    (chc : ConstraintedHornClause) : Except Error (Verdict α) := do
  match ← hasChanged previous conjectures chc.uninterpretedPredicates with
  | false => return .unchanged
  | true =>
    match ← checkChc check chc conjectures with
    | none => return .satisfied
    | some counterexample => return .unsatisfied counterexample

/-- The clauses that stay in a list, the ones that leave it, and the
    counterexamples. -/
structure Pass (α : Type) where
  kept : List ConstraintedHornClause
  moved : List ConstraintedHornClause
  counterexamples : List (HornCounterexample α)

/-- `counterexamples.push_back` for a clause with a counterexample. -/
def Verdict.counterexamples : Verdict α → List (HornCounterexample α)
  | .unsatisfied counterexample => [counterexample]
  | _ => []

/-- A loop over one of the lists; `moves` says which clauses are erased from it. -/
def passLoop (check : Solver α) (previous conjectures : ConjectureMap)
    (moves : Verdict α → Bool) : List ConstraintedHornClause → Except Error (Pass α)
  | [] => .ok ⟨[], [], []⟩
  | chc :: rest => do
    let v ← recheck check previous conjectures chc
    let r ← passLoop check previous conjectures moves rest
    return ⟨if moves v then r.kept else chc :: r.kept, if moves v then chc :: r.moved else r.moved,
      v.counterexamples ++ r.counterexamples⟩

/-- The loop over `unsatisfied_chcs` (lines 152–196): satisfied clauses leave. -/
def checkUnsatisfied (check : Solver α) (previous conjectures : ConjectureMap) :
    List ConstraintedHornClause → Except Error (Pass α) :=
  passLoop check previous conjectures fun v => match v with
    | .satisfied => true
    | _ => false

/-- The loop over `satisfied_chcs` (lines 199–242): unsatisfied clauses leave. -/
def checkSatisfied (check : Solver α) (previous conjectures : ConjectureMap) :
    List ConstraintedHornClause → Except Error (Pass α) :=
  passLoop check previous conjectures fun v => match v with
    | .unsatisfied _ => true
    | _ => false

/-- The local variables of `learn2`; `counterexamples` has those that were added to
    the learner. -/
structure LearnState (α : Type) where
  satisfiedChcs : List ConstraintedHornClause
  unsatisfiedChcs : List ConstraintedHornClause
  previousConjectures : ConjectureMap
  counterexamples : List (HornCounterexample α)

/-- The state before the loop (lines 90–103). -/
def LearnState.initial (p : Problem) : LearnState α := ⟨[], p.chcs, fun _ => none, []⟩

/-- The body of the loop of `learn2` for what `learner.get_conjectures ()` returns. -/
def iteration (check : Solver α) (conjectures : ConjectureMap) (s : LearnState α) :
    Except Error (LearnState α) := do
  let u ← checkUnsatisfied check s.previousConjectures conjectures s.unsatisfiedChcs
  let v ← checkSatisfied check s.previousConjectures conjectures s.satisfiedChcs
  return ⟨v.kept ++ u.moved, u.kept ++ v.moved, conjectures,
    s.counterexamples ++ (u.counterexamples ++ v.counterexamples)⟩

/-- The maps of the learner have an entry for every relation: `fillMap` adds the ones
    that are missing. -/
def Covers (p : Problem) (conjectures : ConjectureMap) : Prop :=
  ∀ r ∈ p.relations, (conjectures r).isSome = true

/-- The states at the head of the loop, for any answers of the learner. -/
inductive LoopHead (check : Solver α) (p : Problem) : LearnState α → Prop
  | start : LoopHead check p (.initial p)
  | next {s s' : LearnState α} {conjectures : ConjectureMap} : LoopHead check p s →
    s.unsatisfiedChcs ≠ [] → Covers p conjectures → iteration check conjectures s = .ok s' →
    LoopHead check p s'

/-! ## Verdicts -/

variable {check : Solver α} {p : Problem} {previous conjectures : ConjectureMap}
  {chc : ConstraintedHornClause}

theorem conjectureAt_ok {decl : Decl} {c : Conjecture} :
    conjectureAt conjectures decl = .ok c ↔ conjectures decl = some c := by
  unfold conjectureAt
  cases conjectures decl with
  | none => simp
  | some c' => simp

theorem substituteAll_congr {decls : List Decl} :
    ∀ {e : Term}, (∀ decl ∈ decls, previous decl = conjectures decl) →
      substituteAll previous decls e = substituteAll conjectures decls e := by
  induction decls with
  | nil =>
    intro e _
    rfl
  | cons decl rest ih =>
    intro e h
    have hrest : ∀ decl' ∈ rest, previous decl' = conjectures decl' :=
      fun decl' hd => h decl' (List.mem_cons_of_mem _ hd)
    have hat : conjectureAt previous decl = conjectureAt conjectures decl := by
      unfold conjectureAt
      rw [h decl List.mem_cons_self]
    simp only [substituteAll, hat, ih hrest]

/-- The verdict depends on the conjectures of the listed predicates. -/
theorem checkChc_congr
    (h : ∀ decl ∈ chc.uninterpretedPredicates, previous decl = conjectures decl) :
    checkChc check chc previous = checkChc check chc conjectures := by
  unfold checkChc
  rw [substituteAll_congr h]

/-- The two ways in which `check_chc` returns. -/
theorem checkChc_cases {r : Option (HornCounterexample α)}
    (h : checkChc check chc conjectures = .ok r) :
    ∃ e, substituteAll conjectures chc.uninterpretedPredicates chc.expr = .ok e ∧
      ((check (.op .not [e]) = .unsat ∧ r = none) ∨
        ∃ eval, check (.op .not [e]) = .sat eval ∧
          r = some ⟨chc.predicatesInLhs.map (extractDatapoint eval),
            chc.predicatesInRhs.map (extractDatapoint eval)⟩) := by
  obtain ⟨e, he, h⟩ := bind_ok.mp h
  refine ⟨e, he, ?_⟩
  cases hres : check (.op .not [e]) with
  | unsat =>
    rw [hres] at h
    exact .inl ⟨rfl, (Except.ok.inj h).symm⟩
  | unknown =>
    rw [hres] at h
    cases h
  | sat eval =>
    rw [hres] at h
    exact .inr ⟨eval, rfl, (Except.ok.inj h).symm⟩

theorem hasChanged_false {decls : List Decl} (h :
    hasChanged previous conjectures decls = .ok false) :
    ∀ decl ∈ decls, previous decl = conjectures decl := by
  induction decls with
  | nil => simp
  | cons decl rest ih =>
    rw [hasChanged, bind_ok] at h
    obtain ⟨b, hb, h⟩ := h
    cases b with
    | true => cases h
    | false =>
      obtain ⟨c, hc, hret⟩ := bind_ok.mp hb
      have hprev : previous decl = some c := by simpa using Except.ok.inj hret
      intro decl' hd
      rcases List.mem_cons.mp hd with rfl | hd
      · rw [hprev, conjectureAt_ok.mp hc]
      · exact ih h decl' hd

/-- A clause is skipped, satisfied or not satisfied. -/
theorem recheck_cases {v : Verdict α} (h : recheck check previous conjectures chc = .ok v) :
    (v = .unchanged ∧ ∀ decl ∈ chc.uninterpretedPredicates, previous decl = conjectures decl) ∨
    (v = .satisfied ∧ checkChc check chc conjectures = .ok none) ∨
    (∃ ce, v = .unsatisfied ce ∧ checkChc check chc conjectures = .ok (some ce)) := by
  obtain ⟨b, hb, h⟩ := bind_ok.mp h
  cases b with
  | false => exact .inl ⟨(Except.ok.inj h).symm, hasChanged_false hb⟩
  | true =>
    obtain ⟨r, hr, h⟩ := bind_ok.mp h
    cases r with
    | none => exact .inr (.inl ⟨(Except.ok.inj h).symm, hr⟩)
    | some ce => exact .inr (.inr ⟨ce, (Except.ok.inj h).symm, hr⟩)

/-- A loop over a list splits it according to the verdicts. -/
theorem passLoop_spec {moves : Verdict α → Bool} {l : List ConstraintedHornClause} :
    ∀ {r : Pass α}, passLoop check previous conjectures moves l = .ok r →
      (r.kept ++ r.moved).Perm l ∧
      (∀ chc ∈ r.kept, ∃ v, recheck check previous conjectures chc = .ok v ∧ moves v = false) ∧
      ∀ chc ∈ r.moved, ∃ v, recheck check previous conjectures chc = .ok v ∧ moves v = true := by
  induction l with
  | nil =>
    intro r h
    rw [← Except.ok.inj h]
    exact ⟨.refl _, by simp, by simp⟩
  | cons chc rest ih =>
    intro r h
    obtain ⟨v, hv, h⟩ := bind_ok.mp h
    obtain ⟨r', hr', h⟩ := bind_ok.mp h
    obtain ⟨hperm, hkept, hmoved⟩ := ih hr'
    rw [← Except.ok.inj h]
    cases hm : moves v with
    | true =>
      refine ⟨?_, hkept, ?_⟩
      · exact List.perm_middle.trans (hperm.cons chc)
      · intro chc' hc
        rcases List.mem_cons.mp hc with rfl | hc
        · exact ⟨v, hv, hm⟩
        · exact hmoved chc' hc
    | false =>
      refine ⟨hperm.cons chc, ?_, hmoved⟩
      intro chc' hc
      rcases List.mem_cons.mp hc with rfl | hc
      · exact ⟨v, hv, hm⟩
      · exact hkept chc' hc

/-! ## The invariant of the loop -/

/-- The lists have every clause once, the satisfied ones pass `check_chc`, and the
    conjectures come from the learner unless no iteration was made. -/
structure LearnInv (check : Solver α) (p : Problem) (s : LearnState α) : Prop where
  perm : (s.satisfiedChcs ++ s.unsatisfiedChcs).Perm p.chcs
  passes : ∀ chc ∈ s.satisfiedChcs, checkChc check chc s.previousConjectures = .ok none
  covers : s.unsatisfiedChcs = p.chcs ∨ Covers p s.previousConjectures

theorem LearnInv.initial : LearnInv check p (.initial p) where
  perm := .refl _
  passes := by simp [LearnState.initial]
  covers := .inl rfl

/-- One iteration keeps the invariant. -/
theorem iteration_keeps {s s' : LearnState α} (h : LearnInv check p s) (hcov : Covers p conjectures)
    (hrun : iteration check conjectures s = .ok s') : LearnInv check p s' := by
  obtain ⟨u, hu, hrun⟩ := bind_ok.mp hrun
  obtain ⟨v, hv, hrun⟩ := bind_ok.mp hrun
  rw [← Except.ok.inj hrun]
  obtain ⟨hpermU, _, hmovedU⟩ := passLoop_spec hu
  obtain ⟨hpermV, hkeptV, _⟩ := passLoop_spec hv
  refine ⟨?_, ?_, .inr hcov⟩
  · show ((v.kept ++ u.moved) ++ (u.kept ++ v.moved)).Perm p.chcs
    have hexchange : ((v.kept ++ u.moved) ++ (u.kept ++ v.moved)).Perm
        ((v.kept ++ v.moved) ++ (u.kept ++ u.moved)) := by
      rw [List.append_assoc, List.append_assoc]
      refine List.Perm.append_left _ (List.perm_append_comm.trans ?_)
      rw [← List.append_assoc]
      exact List.perm_append_comm.append_right _
    exact hexchange.trans ((hpermV.append hpermU).trans h.perm)
  · intro chc hchc
    rcases List.mem_append.mp hchc with hchc | hchc
    · obtain ⟨w, hw, hkeep⟩ := hkeptV chc hchc
      have hmem : chc ∈ s.satisfiedChcs := hpermV.subset (List.mem_append_left _ hchc)
      rcases recheck_cases hw with ⟨_, hsame⟩ | ⟨_, hpass⟩ | ⟨ce, rfl, _⟩
      · rw [← checkChc_congr hsame]
        exact h.passes chc hmem
      · exact hpass
      · simp at hkeep
    · obtain ⟨w, hw, hmove⟩ := hmovedU chc hchc
      rcases recheck_cases hw with ⟨rfl, _⟩ | ⟨_, hpass⟩ | ⟨ce, rfl, _⟩
      · simp at hmove
      · exact hpass
      · simp at hmove

/-- The invariant holds at every loop head. -/
theorem LoopHead.inv {s : LearnState α} (h : LoopHead check p s) : LearnInv check p s := by
  induction h with
  | start => exact LearnInv.initial
  | next _ _ hcov hrun ih => exact iteration_keeps ih hcov hrun

theorem checkChcs_eq_none {l : List ConstraintedHornClause}
    (h : ∀ chc ∈ l, checkChc check chc conjectures = .ok none) :
    checkChcs check conjectures l = .ok none := by
  induction l with
  | nil => rfl
  | cons chc rest ih =>
    rw [checkChcs, h chc List.mem_cons_self]
    exact ih fun chc' hc => h chc' (List.mem_cons_of_mem _ hc)

/-! ## Agreement with `naive_check` -/

/-- The answers of the solver are right. -/
structure Solver.Correct (T : Theory α) (check : Solver α) : Prop where
  unsat : ∀ φ, check φ = .unsat → ∀ I : Interp α, I.Sorted → (φ.eval T I []).truth = false
  sat : ∀ φ eval, check φ = .sat eval → ∃ I : Interp α, I.Sorted ∧
    (φ.eval T I []).truth = true ∧ ∀ t, eval t = t.eval T I []

/-- A clause is valid if its predicates stand for the conjectures. -/
def Valid (T : Theory α) (chc : ConstraintedHornClause) (conjectures : ConjectureMap) : Prop :=
  ∃ e, substituteAll conjectures chc.uninterpretedPredicates chc.expr = .ok e ∧
    ∀ I : Interp α, I.Sorted → (e.eval T I []).truth = true

theorem valid_of_checkChc {T : Theory α} (hcheck : check.Correct T)
    (h : checkChc check chc conjectures = .ok none) : Valid T chc conjectures := by
  obtain ⟨e, he, ⟨hres, _⟩ | ⟨eval, _, hsome⟩⟩ := checkChc_cases h
  · refine ⟨e, he, fun I hI => ?_⟩
    have hfalse := hcheck.unsat _ hres I hI
    simpa [Op.eval] using hfalse
  · cases hsome

/-- What the loop of `learn2` promises: at every loop head the lists have every clause
    once and the satisfied ones are valid, and `naive_check` finds nothing when the
    loop ends. -/
def AgreesWithNaiveCheck (T : Theory α) (check : Solver α) (p : Problem) : Prop :=
  ∀ s, LoopHead check p s → (s.satisfiedChcs ++ s.unsatisfiedChcs).Perm p.chcs ∧
    (∀ chc ∈ s.satisfiedChcs, Valid T chc s.previousConjectures) ∧
    (s.unsatisfiedChcs = [] → naiveCheck check p s.previousConjectures = .ok none)

/-- The loop agrees with `naive_check` except for a problem with relations and without
    clauses: there the learner is never asked, and `naive_check` asserts that every
    relation has a conjecture. -/
theorem learn2_iff (T : Theory α) (check : Solver α) (hcheck : check.Correct T) (p : Problem) :
    AgreesWithNaiveCheck T check p ↔ p.chcs ≠ [] ∨ p.relations = [] := by
  constructor
  · intro h
    by_contra hno
    push Not at hno
    obtain ⟨hchcs, hrel⟩ := hno
    have hrun : naiveCheck check p (fun _ => none) = .ok none := (h _ .start).2.2 hchcs
    obtain ⟨u, hassert, _⟩ := bind_ok.mp hrun
    obtain ⟨r, hr⟩ := List.exists_mem_of_ne_nil _ hrel
    have hsome := List.all_eq_true.mp (assert_eq_ok hassert) r hr
    simp at hsome
  · intro h s hs
    have hinv := hs.inv
    refine ⟨hinv.perm, fun chc hchc => valid_of_checkChc hcheck (hinv.passes chc hchc), ?_⟩
    intro hexit
    have hcov : Covers p s.previousConjectures := by
      rcases hinv.covers with hcov | hcov
      · have hrel : p.relations = [] := h.resolve_left fun hne => hne (hcov ▸ hexit)
        intro r hr
        simp [hrel] at hr
      · exact hcov
    have hall : (p.relations.all fun r => (s.previousConjectures r).isSome) = true :=
      List.all_eq_true.mpr hcov
    have hperm := hinv.perm
    rw [hexit, List.append_nil] at hperm
    unfold naiveCheck
    rw [hall]
    exact checkChcs_eq_none fun chc hchc => hinv.passes chc (hperm.mem_iff.mpr hchc)

/-- Linear arithmetic, as far as the examples need it. -/
def arithmetic : Theory Unit
  | "<=", [.int a, .int b] => .bool (a ≤ b)
  | _, _ => .bool false

/-- The interpretation in which every function is false or zero. -/
def zeros : Interp Unit := fun f _ =>
  match f.range with
  | .bool => .bool false
  | .int => .int 0
  | .other s => .other s ()

theorem zeros_sorted : zeros.Sorted := by
  intro f vs
  unfold zeros
  cases f.range <;> rfl

/-- A solver that decides the Boolean constants only. -/
noncomputable def constantSolver : Solver Unit := fun φ =>
  if φ = .op .not [.op (.bool true) []] then .unsat
  else if φ = .op .not [.op (.bool false) []] then .sat fun t => t.eval arithmetic zeros []
  else .unknown

theorem constantSolver_correct : Solver.Correct arithmetic constantSolver where
  unsat φ h I _ := by
    unfold constantSolver at h
    split_ifs at h with hφ
    rw [hφ]
    simp [Op.eval]
  sat φ eval h := by
    unfold constantSolver at h
    split_ifs at h with hφ hψ
    refine ⟨zeros, zeros_sorted, ?_, fun t => ?_⟩
    · rw [hψ]
      simp [Op.eval]
    · rw [← CheckResult.sat.inj h]

/-- A relation over `Bool`. -/
def flag : Decl := ⟨.str "flag@", [.bool], .bool⟩

/-- The fact `flag@(true)`. -/
def flagFact : ConstraintedHornClause where
  expr := .app flag [.op (.bool true) []]
  uninterpretedPredicates := [flag]
  predicatesInLhs := []
  predicatesInRhs := [⟨flag, [.op (.bool true) []]⟩]

theorem learn2_iff_flagFact : AgreesWithNaiveCheck arithmetic constantSolver ⟨[flag], [flagFact]⟩ :=
  (learn2_iff arithmetic constantSolver constantSolver_correct _).mpr (.inl (by simp))

/-- Without clauses the loop ends at once, and the assertion of `naive_check` fails. -/
theorem naiveCheck_fails_without_chcs :
    ¬ AgreesWithNaiveCheck arithmetic constantSolver ⟨[flag], []⟩ := by
  intro h
  have hrun := (h _ .start).2.2 rfl
  have hfail : naiveCheck constantSolver ⟨[flag], []⟩ (fun _ => none) = .error .assertionFailure :=
    rfl
  rw [LearnState.initial, hfail] at hrun
  cases hrun

end HiceDt.Smt
