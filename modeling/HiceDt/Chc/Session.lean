import HiceDt.Chc.Accepted
import HiceDt.Smt.Solutions

/-!
# Runs of the verifier with its learner

The loop of `learn2` (`chc_verifier/src/chc_verifier.cpp`, lines 87–270) calls
`add_counterexample` for every counterexample and `get_conjectures` at its head. Here both
are the ones of `learner_interface`, so that a run is one of the whole program.

Results:

* `head_allRecordable`: what the data points of the counterexamples look like.
* `answer_honest`: the learner answers with conjectures that fit the counterexamples.
* `learn2_refines`: a run of the program is one of the loop with an honest learner.
* `learn2_continues`: on a problem with a solution the run goes on.
-/

namespace HiceDt.Chc

open HiceDt Loop Fol Learner Store

variable {α : Type}

/-- What `learner.get_conjectures ()` may return after these counterexamples. -/
def Answer (F : Type) [Score F] (iface : LearnerInterface) (ces : List (Smt.HornCounterexample α))
    (conjectures : Smt.ConjectureMap) : Prop :=
  ∃ s call map, recordAll iface lboolValue ces = .ok s ∧ getConjectures F iface call s = .ok map ∧
    conjectures = map.toSmt iface

/-- The predicates of the clauses are applied to arguments of their sorts, and no argument can
    be false. -/
def ProperArguments (T : Theory α) (p : Smt.Problem) : Prop :=
  ∀ chc ∈ p.chcs, ∀ a ∈ chc.predicatesInLhs ++ chc.predicatesInRhs, ∀ I : Interp α, I.Sorted →
    (a.args.map fun t => (t.eval T I []).sort) = a.decl.domain ∧
      ∀ t ∈ a.args, t.eval T I [] ≠ .bool false

/-- What the conjectures for the clauses have to be like, and the counterexamples that they
    have to fit. -/
structure Learned (T : Theory α) (p : Smt.Problem) (ces : List (Smt.HornCounterexample α))
    (conjectures : Smt.ConjectureMap) : Prop where
  honest : Smt.Honest T p ces conjectures
  overVars : Smt.OverVariables p conjectures
  formulas : Smt.Formulas T conjectures

variable {T : Theory α} {check : Smt.Solver α} {p : Smt.Problem} {iface : LearnerInterface}
  {F : Type} [Score F] {ces : List (Smt.HornCounterexample α)} {conjectures : Smt.ConjectureMap}
  {relations : List FuncDecl} {tried : List Smt.ConjectureMap} {s s' : Smt.LearnState α}

/-! ## The data points of a counterexample -/

theorem toVal_sort (v : Value) : (v.toVal : Val α).sort = v.sort.srt := by
  cases v <;> rfl

/-- A data point with values of the sorts that are not false. -/
theorem recordable_of_toSmt {d : TeacherDatapoint} {e : Smt.TeacherDatapoint α} (hd : d.toSmt = e)
    (hsort : e.values.map Val.sort = e.predicate.domain) (hbools : Val.bool false ∉ e.values) :
    Recordable NotFalse d := by
  subst hd
  have hsorts : (d.values.map Value.sort).map Z3Sort.srt = d.predicate.domain.map Z3Sort.srt := by
    refine Eq.trans ?_ hsort
    show _ = (d.values.map Value.toVal).map Val.sort
    rw [List.map_map, List.map_map]
    exact List.map_congr_left fun v _ => (toVal_sort v).symm
  refine ⟨List.map_injective_iff.mpr (fun _ _ => Z3Sort.srt_inj) hsorts, fun v hmem hfalse =>
    hbools ?_⟩
  exact List.mem_map.mpr ⟨v, hmem, by rw [hfalse]; rfl⟩

/-- The data points of the counterexample for a clause are recordable. -/
theorem checkChc_recordable (hcheck : check.Correct T) (hproper : ProperArguments T p)
    {chc : Smt.ConstraintedHornClause} (hchc : chc ∈ p.chcs) {ce : Smt.HornCounterexample α}
    (hrun : Smt.checkChc check chc conjectures = .ok (some ce)) :
    ∀ d : TeacherDatapoint, d.toSmt ∈ ce.lhs ++ ce.rhs → Recordable NotFalse d := by
  obtain ⟨e, _, ⟨_, hnone⟩ | ⟨eval, hsat, hsome⟩⟩ := Smt.checkChc_cases hrun
  · cases hnone
  obtain ⟨I, hI, _, heval⟩ := hcheck.sat _ _ hsat
  obtain rfl : eval = fun t => t.eval T I [] := funext heval
  obtain rfl := Option.some.inj hsome
  intro d hd
  rw [← List.map_append] at hd
  obtain ⟨a, ha, had⟩ := List.mem_map.mp hd
  obtain ⟨hsort, hbools⟩ := hproper chc hchc a ha I hI
  refine recordable_of_toSmt had.symm ?_ ?_
  · show (a.args.map fun t => t.eval T I []).map Val.sort = a.decl.domain
    rw [List.map_map]
    exact hsort
  · show Val.bool false ∉ a.args.map fun t => t.eval T I []
    intro hmem
    obtain ⟨t, ht, hfalse⟩ := List.mem_map.mp hmem
    exact hbools t ht hfalse

/-! ## The answers of the learner -/

/-- The interface is constructed for the relations of the problem, and these are
    distinguished by their names. -/
structure InterfaceFor (p : Smt.Problem) (iface : LearnerInterface) : Prop where
  created : LearnerInterface.create iface.relations = .ok iface
  relations : (iface.relations.map FuncDecl.toDecl).Perm p.relations
  names : (iface.relations.map FuncDecl.name).Nodup

theorem InterfaceFor.arity (h : InterfaceFor p iface) : ∀ decl ∈ iface.relations,
    0 < decl.arity := by
  have hcreated := h.created
  unfold LearnerInterface.create at hcreated
  split_ifs at hcreated with hany
  intro decl hdecl
  by_contra hno
  exact hany (List.any_eq_true.mpr ⟨decl, hdecl, decide_eq_true (by omega)⟩)

theorem InterfaceFor.range (h : InterfaceFor p iface) : ∀ r ∈ p.relations, r.range = .bool := by
  intro r hr
  obtain ⟨decl, -, rfl⟩ := List.mem_map.mp (h.relations.mem_iff.mpr hr)
  rfl

theorem getConjectures_map {store : Store} {call : Call} {map : ConjectureMap}
    (hrun : getConjectures F iface call store = .ok map) :
    ∃ tree, getUnorderedMap iface call.random tree = .ok map := by
  unfold getConjectures at hrun
  split at hrun
  · exact ⟨_, hrun⟩
  · cases hrun
  · cases hrun

theorem getConjectures_wellSorted {store : Store} {call : Call} {map : ConjectureMap}
    (hrun : getConjectures F iface call store = .ok map) : map.WellSorted := by
  obtain ⟨tree, hmap⟩ := getConjectures_map hrun
  exact getUnorderedMap_wellSorted hmap

/-- Conjectures for all relations, over the variables. -/
theorem getConjectures_over (h : InterfaceFor p iface) (hT : Arithmetic T) {store : Store}
    {call : Call}
    {map : ConjectureMap} (hrun : getConjectures F iface call store = .ok map) :
    Smt.OverVariables p (map.toSmt iface) ∧ Smt.Formulas T (map.toSmt iface) := by
  obtain ⟨tree, hmap⟩ := getConjectures_map hrun
  refine ⟨⟨fun r hr => ?_, fun f c hc => ?_⟩, fun f c hc I vs => ?_⟩
  · obtain ⟨decl, hdecl, rfl⟩ := List.mem_map.mp (h.relations.mem_iff.mpr hr)
    obtain ⟨c, hc⟩ := getUnorderedMap_covers hmap decl hdecl
    exact Option.isSome_iff_exists.mpr ⟨_, ConjectureMap.toSmt_some.mpr
      ⟨decl, hdecl, rfl, c, hc, rfl⟩⟩
  · obtain ⟨decl, -, -, c', -, rfl⟩ := ConjectureMap.toSmt_some.mp hc
    exact c'.toSmt_overVariables
  · obtain ⟨decl, -, -, c', hc', rfl⟩ := ConjectureMap.toSmt_some.mp hc
    exact Expr.isFormula_sort hT (getConjectures_wellSorted hrun decl c' hc').1.formula

/-- The answer of the learner fits the counterexamples. -/
theorem answer_honest (h : InterfaceFor p iface) (hT : Arithmetic T)
    (hrec : AllRecordable NotFalse ces)
    (hanswer : Answer F iface ces conjectures) : Learned T p ces conjectures := by
  obtain ⟨store, call, map, hstore, hmap, rfl⟩ := hanswer
  obtain ⟨hover, hformulas⟩ := getConjectures_over h hT hmap
  exact ⟨⟨hover.covers, getConjectures_fits hT h.names h.arity (recordAll_spec hrec hstore) hmap⟩,
    hover, hformulas⟩

/-! ## Runs -/

theorem answer_covers (h : InterfaceFor p iface) (hT : Arithmetic T)
    (hanswer : Answer F iface ces conjectures) : Smt.Covers p conjectures := by
  obtain ⟨store, call, map, -, hmap, rfl⟩ := hanswer
  exact (getConjectures_over h hT hmap).1.covers

/-- The counterexamples of a run are recordable. -/
theorem head_allRecordable (hcheck : check.Correct T) (hproper : ProperArguments T p)
    (h : InterfaceFor p iface) (hT : Arithmetic T)
    (hhead : Smt.Head (Answer F iface) check p tried s) :
    AllRecordable NotFalse s.counterexamples := by
  intro ce hce
  obtain ⟨chc, hchc, _, hcex⟩ := hhead.found (fun _ _ hanswer => answer_covers h hT hanswer) hce
  exact checkChc_recordable hcheck hproper hchc hcex

/-- Every answer in a run is one of an honest learner. -/
theorem head_learned (hcheck : check.Correct T) (hproper : ProperArguments T p)
    (h : InterfaceFor p iface) (hT : Arithmetic T)
    (hhead : Smt.Head (Answer F iface) check p tried s) :
    Smt.Head (Learned T p) check p tried s := by
  induction hhead with
  | start => exact .start
  | next hhead hne hanswer hrun ih =>
    have hrec := head_allRecordable hcheck hproper h hT hhead
    exact .next ih hne (answer_honest h hT hrec hanswer) hrun

/-- What a run of the program achieves. -/
structure Achieves (T : Theory α) (check : Smt.Solver α) (fp : Smt.Fixedpoint) (p : Smt.Problem)
    (tried : List Smt.ConjectureMap) (s : Smt.LearnState α) : Prop where
  refines : Smt.Head (Learned T p) check p tried s
  nodup : tried.Nodup
  keeps : ∀ I : Interp α, p.Solution T I → ∀ ce ∈ s.counterexamples,
    ce.Holds fun d => (I d.predicate d.values).truth = true
  solvedBy : s.unsatisfiedChcs = [] → Smt.SolvedBy T fp p s.previousConjectures
  solves : s.unsatisfiedChcs = [] → p.Solvable T ∧ (fp.Unambiguous → fp.Solvable T)

/-- A run of the program is one of the loop with an honest learner: every answer fits all the
    counterexamples that were recorded before it. Therefore no answer is repeated, no
    counterexample excludes a solution, and at the end the problem is solved. -/
theorem learn2_refines [Inhabited α] (F : Type) [Score F] (T : Theory α) (hT : Arithmetic T)
    (check : Smt.Solver α) (hcheck : check.Correct T) (fp : Smt.Fixedpoint) (p : Smt.Problem)
    (hparse : Smt.parse fp = .ok p) (hshape : ∀ chc ∈ p.chcs, Smt.HornClause chc.expr)
    (hproper : ProperArguments T p) (iface : LearnerInterface) (hiface : InterfaceFor p iface)
    (tried : List Smt.ConjectureMap) (s : Smt.LearnState α)
    (hhead : Smt.Head (Answer F iface) check p tried s) : Achieves T check fp p tried s := by
  have hlearned := head_learned hcheck hproper hiface hT hhead
  have hclauses : ∀ chc ∈ p.chcs, Smt.HornShaped chc :=
    fun chc hchc => ⟨Smt.parse_clause hparse hchc, hshape chc hchc⟩
  have hsolved : s.unsatisfiedChcs = [] → Smt.SolvedBy T fp p s.previousConjectures :=
    (hlearned.imp fun _ _ hl => And.intro hl.overVars hl.formulas).solvedBy hcheck hparse
    hiface.range
  refine ⟨hlearned, ?_, fun I hI => ?_, hsolved, fun hexit => (hsolved hexit).solvable⟩
  · exact (hlearned.imp fun _ _ hl => hl.honest).nodup hcheck hclauses
      fun _ hchc => Smt.parse_predicates hparse hchc
  · exact (hlearned.imp fun _ _ hl => hl.overVars).keeps_solutions hcheck hparse hshape hI

/-! ## A run goes on -/

/-- The values of the data points and their sums and differences fit into an `int`. -/
def SmallValues (ces : List (Smt.HornCounterexample α)) : Prop :=
  ∀ ce ∈ ces, ∀ d : TeacherDatapoint, d.toSmt ∈ ce.lhs ++ ce.rhs → Small d

theorem exists_values {vs : List (Val α)} :
    ∀ domain : List Z3Sort, vs.map Val.sort = domain.map Z3Sort.srt →
      ∃ ws : List Value, ws.map Value.toVal = vs := by
  induction vs with
  | nil => exact fun _ _ => ⟨[], rfl⟩
  | cons v vs ih =>
    intro domain h
    cases domain with
    | nil => cases h
    | cons sort domain =>
      rw [List.map_cons, List.map_cons, List.cons.injEq] at h
      obtain ⟨ws, rfl⟩ := ih domain h.2
      cases v with
      | bool b => exact ⟨.bool b :: ws, rfl⟩
      | int n => exact ⟨.int n :: ws, rfl⟩
      | other s a => cases sort <;> cases h.1

/-- The application of a predicate in a model is a data point of the interface. -/
theorem exists_datapoint (h : InterfaceFor p iface) {a : Smt.Predicate} (ha : a.decl ∈ p.relations)
    {I : Interp α} (hsort : (a.args.map fun t => (t.eval T I []).sort) = a.decl.domain) :
    ∃ d : TeacherDatapoint, d.toSmt = Smt.extractDatapoint (fun t => t.eval T I []) a ∧
      d.predicate ∈ iface.relations := by
  obtain ⟨decl, hdecl, htoDecl⟩ := List.mem_map.mp (h.relations.mem_iff.mpr ha)
  obtain ⟨ws, hws⟩ : ∃ ws : List Value, ws.map Value.toVal = a.args.map fun t => t.eval T I [] := by
    refine exists_values decl.domain ?_
    rw [List.map_map]
    refine Eq.trans hsort ?_
    rw [← htoDecl]
    rfl
  refine ⟨⟨decl, ws⟩, ?_, hdecl⟩
  rw [TeacherDatapoint.toSmt, Smt.extractDatapoint, hws, htoDecl]

theorem exists_datapoints (h : InterfaceFor p iface) {I : Interp α} {l : List Smt.Predicate}
    (hl : ∀ a ∈ l, a.decl ∈ p.relations ∧
      (a.args.map fun t => (t.eval T I []).sort) = a.decl.domain) :
    ∃ ds : List TeacherDatapoint,
      ds.map TeacherDatapoint.toSmt = l.map (Smt.extractDatapoint fun t => t.eval T I []) ∧
        ∀ d ∈ ds, d.predicate ∈ iface.relations := by
  induction l with
  | nil => exact ⟨[], rfl, by simp⟩
  | cons a l ih =>
    obtain ⟨hmem, hsort⟩ := hl a List.mem_cons_self
    obtain ⟨d, hd, hrel⟩ := exists_datapoint h hmem hsort
    obtain ⟨ds, hds, hrels⟩ := ih fun a' ha' => hl a' (List.mem_cons_of_mem _ ha')
    refine ⟨d :: ds, by rw [List.map_cons, List.map_cons, hd, hds], fun d' hd' => ?_⟩
    rcases List.mem_cons.mp hd' with rfl | hd'
    · exact hrel
    · exact hrels d' hd'

/-- The learner accepts the counterexample for a clause. -/
theorem checkChc_acceptable (hcheck : check.Correct T) {fp : Smt.Fixedpoint}
    (hparse : Smt.parse fp = .ok p) (hshape : ∀ chc ∈ p.chcs, Smt.HornClause chc.expr)
    (hproper : ProperArguments T p) (h : InterfaceFor p iface) {chc : Smt.ConstraintedHornClause}
    (hchc : chc ∈ p.chcs) {ce : Smt.HornCounterexample α}
    (hrun : Smt.checkChc check chc conjectures = .ok (some ce))
    (hsmall : ∀ d : TeacherDatapoint, d.toSmt ∈ ce.lhs ++ ce.rhs → Small d) :
    ∃ lhs rhs, Converts iface ce lhs rhs ∧ Acceptable iface lhs rhs := by
  have hrec := checkChc_recordable hcheck hproper hchc hrun
  have hhorn : Smt.HornShaped chc := ⟨Smt.parse_clause hparse hchc, hshape chc hchc⟩
  obtain ⟨e, _, ⟨_, hnone⟩ | ⟨eval, hsat, hsome⟩⟩ := Smt.checkChc_cases hrun
  · cases hnone
  obtain ⟨I, hI, _, heval⟩ := hcheck.sat _ _ hsat
  obtain rfl : eval = fun t => t.eval T I [] := funext heval
  obtain rfl := Option.some.inj hsome
  have hpoints : ∀ a ∈ chc.predicatesInLhs ++ chc.predicatesInRhs, a.decl ∈ p.relations ∧
      (a.args.map fun t => (t.eval T I []).sort) = a.decl.domain := fun a ha =>
    ⟨Smt.parse_predicates hparse hchc _ ((hhorn.proper.listed _).mpr ⟨a, ha, rfl⟩),
      (hproper chc hchc a ha I hI).1⟩
  obtain ⟨lhs, hlhs, hlrel⟩ := exists_datapoints h fun a ha => hpoints a (List.mem_append_left _ ha)
  obtain ⟨rhs, hrhs, hrrel⟩ := exists_datapoints h fun a ha =>
    hpoints a (List.mem_append_right _ ha)
  have hconv : Converts iface ⟨chc.predicatesInLhs.map
    (Smt.extractDatapoint fun t => t.eval T I []),
      chc.predicatesInRhs.map (Smt.extractDatapoint fun t => t.eval T I [])⟩ lhs rhs :=
    ⟨hlhs, hrhs, fun d hd => (List.mem_append.mp hd).elim (hlrel d) (hrrel d)⟩
  refine ⟨lhs, rhs, hconv, fun d hd => ?_, fun hnil => ?_, ?_⟩
  · have hmem : d.toSmt ∈ chc.predicatesInLhs.map (Smt.extractDatapoint fun t => t.eval T I []) ++
        chc.predicatesInRhs.map (Smt.extractDatapoint fun t => t.eval T I []) := by
      rw [← hlhs, ← hrhs, ← List.map_append]
      exact List.mem_map_of_mem hd
    exact ⟨hrec d hmem, hconv.relations d hd, hsmall d hmem⟩
  · obtain ⟨decl, hdecl⟩ := List.exists_mem_of_ne_nil _ hhorn.proper.nonempty
    obtain ⟨a, ha, -⟩ := (hhorn.proper.listed decl).mp hdecl
    have hlen := congrArg List.length (congrArg (List.map (TeacherDatapoint.toSmt (α := α))) hnil)
    rw [List.map_append, hlhs, hrhs, ← List.map_append, List.length_map, List.map_nil,
      List.length_nil] at hlen
    rw [List.length_eq_zero_iff.mp hlen] at ha
    cases ha
  · have hlen := congrArg List.length hrhs
    rw [List.length_map, List.length_map] at hlen
    rw [hlen]
    exact hhorn.conclusion

/-- Every answer can be substituted in the clauses. -/
theorem answer_conjectured (h : InterfaceFor p iface) (hT : Arithmetic T)
    {fp : Smt.Fixedpoint} (hparse : Smt.parse fp = .ok p) (hanswer : Answer F iface ces conjectures)
    {chc : Smt.ConstraintedHornClause} (hchc : chc ∈ p.chcs) :
    Smt.Conjectured conjectures chc.uninterpretedPredicates := by
  obtain ⟨store, call, map, -, hmap, rfl⟩ := hanswer
  obtain ⟨hover, -⟩ := getConjectures_over h hT hmap
  intro g hg
  obtain ⟨c, hc⟩ := Option.isSome_iff_exists.mp
    (hover.covers g (Smt.parse_predicates hparse hchc g hg))
  obtain ⟨decl, -, rfl, c', hc', rfl⟩ := ConjectureMap.toSmt_some.mp hc
  refine ⟨_, hc, c'.expr.expression_toTerm, ?_, fun g' hg' hmem => ?_⟩
  · have hvars := (getConjectures_wellSorted hmap decl c' hc').2
    show (c'.vars.map Const.toDecl).length = decl.toDecl.arity
    rw [hvars, List.length_map, decl.length_constants, decl.toDecl_arity]
  · have hpos := Smt.parse_arity hparse g' (Smt.parse_predicates hparse hchc g' hg')
    have hzero := ((hover.overVars _ _ hc).constants g' hmem).1
    omega

/-- The counterexamples of a run are recorded. -/
theorem head_recorded (hT : Arithmetic T) (hcheck : check.Correct T) {fp : Smt.Fixedpoint}
    (hparse : Smt.parse fp = .ok p) (hshape : ∀ chc ∈ p.chcs, Smt.HornClause chc.expr)
    (hproper : ProperArguments T p) (h : InterfaceFor p iface) {I : Interp α} (hI : p.Solution T I)
    (hhead : Smt.Head (Answer F iface) check p tried s) (hsmall : SmallValues s.counterexamples) :
    ∃ store, recordAll iface lboolValue s.counterexamples = .ok store := by
  have hacc : AllAcceptable iface s.counterexamples := by
    intro ce hce
    obtain ⟨chc, hchc, _, hcex⟩ := hhead.found (fun _ _ hanswer => answer_covers h hT hanswer) hce
    exact checkChc_acceptable hcheck hparse hshape hproper h hchc hcex (hsmall ce hce)
  -- the solution satisfies all counterexamples
  have hlearned := head_learned hcheck hproper h hT hhead
  exact recordAll_returns h.arity hacc
    ((hlearned.imp fun _ _ hl => hl.overVars).keeps_solutions hcheck hparse hshape hI)

/-- The clauses are checked for an answer. -/
theorem answer_iterates (hT : Arithmetic T) (hdecides : check.Decides) {fp : Smt.Fixedpoint}
    (hparse : Smt.parse fp = .ok p) (hexpr : ∀ chc ∈ p.chcs, Smt.Expression chc.expr)
    (h : InterfaceFor p iface) (hhead : Smt.Head (Answer F iface) check p tried s)
    (hanswer : Answer F iface s.counterexamples conjectures) :
    ∃ s', Smt.iteration check conjectures s = .ok s' :=
  Smt.iteration_returns (hhead.loopHead fun _ _ hanswer => answer_covers h hT hanswer).inv hdecides
    hexpr fun _ hchc => answer_conjectured h hT hparse hanswer hchc

/-- What happens next: the counterexamples are recorded, the learner returns conjectures if
    the bounds of the call suffice, and the clauses are checked for them. -/
structure Continues (F : Type) [Score F] (check : Smt.Solver α) (iface : LearnerInterface)
    (s : Smt.LearnState α) : Prop where
  answers : ∃ store, recordAll iface lboolValue s.counterexamples = .ok store ∧
    ∀ call, Adequate F iface store call → ∃ map, getConjectures F iface call store = .ok map
  iterates : ∀ conjectures, Answer F iface s.counterexamples conjectures →
    ∃ s', Smt.iteration check conjectures s = .ok s'

/-- On a problem with a solution a run goes on from every state: no counterexample contradicts
    a label, the learner finds a tree, and the tree is translated to conjectures that can be
    substituted. -/
theorem learn2_continues (F : Type) [Score F] (T : Theory α) (hT : Arithmetic T)
    (check : Smt.Solver α) (hcheck : check.Correct T) (hdecides : check.Decides)
    (fp : Smt.Fixedpoint) (p : Smt.Problem) (hparse : Smt.parse fp = .ok p)
    (hshape : ∀ chc ∈ p.chcs, Smt.HornClause chc.expr)
    (hexpr : ∀ chc ∈ p.chcs, Smt.Expression chc.expr) (hproper : ProperArguments T p)
    (hsolvable : p.Solvable T) (iface : LearnerInterface) (hiface : InterfaceFor p iface)
    (tried : List Smt.ConjectureMap) (s : Smt.LearnState α)
    (hhead : Smt.Head (Answer F iface) check p tried s) (hsmall : SmallValues s.counterexamples) :
    Continues F check iface s := by
  obtain ⟨I, hI⟩ := hsolvable
  refine ⟨?_, fun conjectures hanswer => ?_⟩
  · obtain ⟨store, hstore⟩ := head_recorded hT hcheck hparse hshape hproper hiface hI hhead hsmall
    have hrecorded := recordAll_spec (head_allRecordable hcheck hproper hiface hT hhead) hstore
    have hν := ((head_learned hcheck hproper hiface hT hhead).imp fun _ _ hl =>
      hl.overVars).keeps_solutions hcheck hparse hshape hI
    exact ⟨store, hstore, fun call hcall => getConjectures_returns hiface.names hiface.arity
      hrecorded.sampled (hrecorded.models _ hν) hcall⟩
  · exact answer_iterates hT hdecides hparse hexpr hiface hhead hanswer

/-! ## The query `flag` -/

/-- Linear arithmetic. -/
def linear : Theory Unit
  | "+", [.int a, .int b] => .int (a + b)
  | "-", [.int a, .int b] => .int (a - b)
  | "<=", [.int a, .int b] => .bool (a ≤ b)
  | ">", [.int a, .int b] => .bool (b < a)
  | _, _ => .bool false

theorem linear_arithmetic : Arithmetic linear where
  add _ _ := rfl
  sub _ _ := rfl
  le _ _ := rfl
  gt _ _ := rfl
  le_sort vs := by
    unfold linear
    split <;> first | rfl | simp_all
  gt_sort vs := by
    unfold linear
    split <;> first | rfl | simp_all

open Classical in
/-- A solver that knows the answer. -/
noncomputable def oracle (T : Theory α) : Smt.Solver α := fun φ =>
  if h : ∃ I : Interp α, I.Sorted ∧ (φ.eval T I []).truth = true then
    .sat fun t => t.eval T h.choose []
  else .unsat

theorem oracle_correct (T : Theory α) : Smt.Solver.Correct T (oracle T) where
  unsat φ h I hI := by
    by_contra htrue
    rw [oracle, dif_pos ⟨I, hI, by simpa using htrue⟩] at h
    cases h
  sat φ eval h := by
    unfold oracle at h
    split_ifs at h with hsat
    obtain ⟨hI, htrue⟩ := hsat.choose_spec
    exact ⟨hsat.choose, hI, htrue, fun t => by rw [← Smt.CheckResult.sat.inj h]⟩

theorem oracle_decides (T : Theory α) : Smt.Solver.Decides (oracle T) := by
  intro φ
  unfold oracle
  split_ifs <;> simp

/-- `flag@` is the only relation. -/
def flagOnly : LearnerInterface := ⟨[⟨"flag@", [.bool]⟩]⟩

/-- The query `flag`. -/
def flagQuery : Smt.Fixedpoint where
  rules := []
  queries := [.app ⟨.str "flag", [], .bool⟩ []]
  wellFormed := by simp [Term.wellFormed, Term.wellFormedList_eq, Decl.arity]
  rules_formulas := by simp

/-- The clause of the query: `flag@(true)` is false. -/
def flagSafe : Smt.ConstraintedHornClause where
  expr := .op .not [.app Smt.flag [.op (.bool true) []]]
  uninterpretedPredicates := [Smt.flag]
  predicatesInLhs := [⟨Smt.flag, [.op (.bool true) []]⟩]
  predicatesInRhs := []

theorem parse_flagQuery : Smt.parse flagQuery = .ok ⟨[Smt.flag], [flagSafe]⟩ := rfl

/-- The first conjecture for `flag@`. -/
def flagMap : ConjectureMap := fillMap (.leaf true) (fun _ => false) flagOnly.relations fun _ =>
    none

theorem flagMap_toSmt : flagMap.toSmt flagOnly Smt.flag =
    some ⟨.op (.bool true) [], [⟨.str "flag@#0", [], .bool⟩]⟩ :=
  ConjectureMap.toSmt_some.mpr ⟨⟨"flag@", [.bool]⟩, by simp [flagOnly], rfl, _, rfl, rfl⟩

/-- The state after the first conjecture. -/
def flagViolated : Smt.LearnState Unit :=
  ⟨[], [flagSafe], flagMap.toSmt flagOnly, [⟨[⟨Smt.flag, [.bool true]⟩], []⟩]⟩

theorem iteration_flagQuery :
    Smt.iteration (oracle linear) (flagMap.toSmt flagOnly) (.initial ⟨[Smt.flag], [flagSafe]⟩) =
      .ok flagViolated := by
  have hsub : Smt.substituteAll (flagMap.toSmt flagOnly) [Smt.flag] flagSafe.expr =
      .ok (.op .not [.op (.bool true) []]) := by
    rw [Smt.substituteAll, Smt.conjectureAt_ok.mpr flagMap_toSmt]
    rfl
  obtain ⟨I, hsat⟩ : ∃ I, oracle linear (.op .not [.op .not [.op (.bool true) []]]) =
      .sat fun t => t.eval linear I [] := by
    unfold oracle
    rw [dif_pos ⟨Smt.zeros, Smt.zeros_sorted, by simp [Op.eval]⟩]
    exact ⟨_, rfl⟩
  have hcheck : Smt.checkChc (oracle linear) flagSafe (flagMap.toSmt flagOnly) =
      .ok (some ⟨[⟨Smt.flag, [.bool true]⟩], []⟩) := by
    rw [Smt.checkChc, show flagSafe.uninterpretedPredicates = [Smt.flag] from rfl, hsub]
    simp [bind, Except.bind, hsat, flagSafe, Smt.extractDatapoint, pure, Except.pure, Op.eval]
  have hrecheck : Smt.recheck (oracle linear) (fun _ => none) (flagMap.toSmt flagOnly) flagSafe =
      .ok (.unsatisfied ⟨[⟨Smt.flag, [.bool true]⟩], []⟩) := by
    have hchanged : Smt.hasChanged (fun _ => none) (flagMap.toSmt flagOnly) [Smt.flag] =
        .ok true := by
      rw [Smt.hasChanged, Smt.changedAt, Smt.conjectureAt_ok.mpr flagMap_toSmt]
      rfl
    rw [Smt.recheck, show flagSafe.uninterpretedPredicates = [Smt.flag] from rfl, hchanged, hcheck]
    rfl
  rw [Smt.iteration, show (Smt.LearnState.initial ⟨[Smt.flag], [flagSafe]⟩ : Smt.LearnState Unit) =
    ⟨[], [flagSafe], fun _ => none, []⟩ from rfl]
  simp only [Smt.checkUnsatisfied, Smt.checkSatisfied, Smt.passLoop, hrecheck]
  rfl

/-- The options of the call. -/
def plain : Call where
  useBounds := false
  doHorndiniPrephase := false
  env _ := .stable
  steps := 9
  attempts := 6
  iterations := 9
  random _ := false

/-- The first answer of the learner. -/
theorem answer_flagQuery : Answer ℝ flagOnly
    (Smt.LearnState.initial ⟨[Smt.flag], [flagSafe]⟩ : Smt.LearnState Unit).counterexamples
    (flagMap.toSmt flagOnly) := by
  refine ⟨initial (objectsOf []), plain, flagMap, rfl, ?_, rfl⟩
  have hsampled : Sampled NotFalse flagOnly lboolValue (initial (objectsOf [])) := .initial _
  have harity : ∀ decl ∈ flagOnly.relations, 0 < decl.arity := by simp [flagOnly, FuncDecl.arity]
  have hok : ((initial (objectsOf [])).sample flagOnly []).Ok flagOnly.integerIdentifier :=
    hsampled.sample_ok harity rfl
  have hattempt : ∀ env, attempt ℝ env ((initial (objectsOf [])).sample flagOnly []) 9 none =
      .ok (.leaf true) := fun env =>
    attempt_empty hok rfl ⟨fun _ => true, by
      simp [Solver.Consistent, sample, initial, datapoints, Main.pointers]⟩
  have hloop : boundLoop ℝ plain.env ((initial (objectsOf [])).sample flagOnly []) 9 6 ⟨1, false⟩ =
      .ok (.leaf true) := by
    rw [boundLoop, show (⟨1, false⟩ : Bound).threshold = none from rfl, hattempt]
  have hlearn : learnDecisionTree ℝ flagOnly plain (initial (objectsOf [])) =
      .ok (.returned (.leaf true)) := by
    show Main.handleExceptions (boundLoop ℝ plain.env ((initial (objectsOf [])).sample flagOnly [])
      9 6 ⟨1, false⟩) = _
    rw [hloop]
    rfl
  rw [getConjectures, hlearn]
  rfl

theorem flagOnly_interface : InterfaceFor ⟨[Smt.flag], [flagSafe]⟩ flagOnly :=
  ⟨rfl, .refl _, by simp [flagOnly]⟩

theorem flagSafe_hornClause : ∀ chc ∈ [flagSafe], Smt.HornClause chc.expr := by
  intro chc hchc
  rw [List.mem_singleton.mp hchc]
  exact .query Nat.one_pos (by simp [Smt.Constraint])

theorem flagSafe_expression : ∀ chc ∈ [flagSafe], Smt.Expression chc.expr := by
  intro chc hchc
  rw [List.mem_singleton.mp hchc]
  exact ⟨rfl, rfl⟩

/-- The query holds if `flag@` is false. -/
theorem zeros_solution : Smt.Problem.Solution linear ⟨[Smt.flag], [flagSafe]⟩ Smt.zeros := by
  refine ⟨Smt.zeros_sorted, fun chc hchc J _ hagree => ?_⟩
  rw [List.mem_singleton.mp hchc]
  simp only [flagSafe, Term.eval_op, Term.eval_app, List.map_cons, List.map_nil,
    hagree Smt.flag (List.mem_singleton_self _)]
  rfl

theorem flagSafe_properArguments : ProperArguments linear ⟨[Smt.flag], [flagSafe]⟩ := by
  intro chc hchc a ha I hI
  rw [List.mem_singleton.mp hchc] at ha
  obtain rfl := List.mem_singleton.mp ha
  refine ⟨?_, ?_⟩
  · simp [Op.eval, Val.sort]
    rfl
  · simp [Op.eval]

theorem head_flagQuery : Smt.Head (Answer ℝ flagOnly) (oracle linear) ⟨[Smt.flag], [flagSafe]⟩
    [flagMap.toSmt flagOnly] flagViolated :=
  .next .start (by simp [Smt.LearnState.initial]) answer_flagQuery iteration_flagQuery

/-- The conjecture true for `flag@` is refuted by the query. -/
theorem learn2_refines_flagQuery : Achieves linear (oracle linear) flagQuery
    ⟨[Smt.flag], [flagSafe]⟩ [flagMap.toSmt flagOnly] flagViolated :=
  learn2_refines ℝ linear linear_arithmetic _ (oracle_correct linear) flagQuery _ parse_flagQuery
    flagSafe_hornClause flagSafe_properArguments flagOnly flagOnly_interface _ _ head_flagQuery

/-- The call is adequate: the only attribute is Boolean, and there is no cut. -/
theorem flagOnly_adequate {store : Store} (h : Sampled NotFalse flagOnly lboolValue store) :
    Adequate ℝ flagOnly store { plain with
      steps := 2 * store.nodes.length + 1, iterations := store.hornIndexes.length + 1 } := by
  have harity : ∀ decl ∈ flagOnly.relations, 0 < decl.arity := by simp [flagOnly, FuncDecl.arity]
  refine ⟨Nat.lt_succ_self _, le_rfl, Nat.lt_succ_self _, fun hne hcs hhcs n b _ => ?_⟩
  have hok := h.sample_ok harity hhcs
  refine ratiosOk_of_no_cut hok (h.pointers_ne_nil hcs hne) _ _ fun _ x hx y hy attr hattr hlt => ?_
  -- all points have the value 1
  have hone : ∀ x ∈ (store.sample flagOnly hcs).datapoints,
      ((store.sample flagOnly hcs).mem x).int attr = 1 := by
    intro x hx
    obtain ⟨p, hp, rfl⟩ := h.mem_datapoints.mp hx
    obtain ⟨d, i, hd, -, hdata⟩ := h.dataAt harity hp
    have hi := (List.getElem?_eq_some_iff.mp hdata.relation).1
    obtain rfl : i = 0 := by simp [flagOnly] at hi; exact hi
    obtain rfl : attr = 0 := by
      have : attr < 1 := hattr
      omega
    rw [h.mem_point hp]
    exact hdata.int_bool hd (harity _ (List.mem_of_getElem? hdata.relation))
      (by unfold LearnerInterface.InInterval; decide) rfl
  rw [hone x hx, hone y hy] at hlt
  omega

/-- After the counterexample there is a next answer, for which the clause is checked. -/
theorem learn2_continues_flagQuery : ∃ conjectures s',
    Answer ℝ flagOnly flagViolated.counterexamples conjectures ∧
      Smt.iteration (oracle linear) conjectures flagViolated = .ok s' := by
  have hsmall : SmallValues flagViolated.counterexamples := by
    intro ce hce d hd n hn
    rw [List.mem_singleton.mp hce] at hd
    obtain rfl : d = ⟨⟨"flag@", [.bool]⟩, [.bool true]⟩ := toSmt_inj (List.mem_singleton.mp hd)
    simp [withDerived, pairs] at hn
  obtain ⟨⟨store, hstore, hlearn⟩, hiterate⟩ := learn2_continues ℝ linear linear_arithmetic _
    (oracle_correct linear) (oracle_decides linear) flagQuery _ parse_flagQuery flagSafe_hornClause
    flagSafe_expression flagSafe_properArguments ⟨_, zeros_solution⟩ flagOnly flagOnly_interface
    _ _ head_flagQuery hsmall
  have hrec := head_allRecordable (oracle_correct linear) flagSafe_properArguments
    flagOnly_interface linear_arithmetic head_flagQuery
  obtain ⟨map, hmap⟩ := hlearn _ (flagOnly_adequate (recordAll_spec hrec hstore).sampled)
  have hanswer : Answer ℝ flagOnly flagViolated.counterexamples (map.toSmt flagOnly) :=
    ⟨store, _, map, hstore, hmap, rfl⟩
  obtain ⟨s', hrun⟩ := hiterate _ hanswer
  exact ⟨_, s', hanswer, hrun⟩

end HiceDt.Chc
