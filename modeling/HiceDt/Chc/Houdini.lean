import HiceDt.Chc.Session
import HiceDt.Lib.Ice

/-!
# Runs with the pre-phase

Runs of the verifier in which the learner starts with its Horndini pre-phase
(`horndini_prephase` in `hice-dt/include/api_helper.h`, lines 78–142). If the problem has a
solution whose relations are conjunctions of the derived predicates, then the pre-phase
always succeeds; its conjunctions only get weaker from one answer to the next, so that the
run is a Houdini algorithm on its own.

Results:

* `fits_iff`: tuples of conjunctions that are consistent for the learner satisfy the
  counterexamples.
* `getConjectures_strongest`: the learner answers with the strongest such tuple.
* `head_strongestAnswer`: every answer in a run is the strongest conjunction.
* `learn2_houdini`: the number of answers is bounded, and the run goes on to its end.
-/

namespace HiceDt.Chc

open HiceDt Loop Fol Learner Solver Main Store

variable {α : Type}

/-! ## Tuples of conjunctions -/

namespace LearnerInterface

/-- The derived predicates of the pre-phase. -/
def predicates (iface : LearnerInterface) : List Horndini.DerivedPredicate :=
  Horndini.generateDerivedPredicates iface.intervals 1

/-- Their indices, for every relation. -/
def derived (iface : LearnerInterface) : List (List ℕ) :=
  Horndini.derivedIntervals 1 iface.intervals 0

/-- The data of the learner for arguments of the relation with identifier `i`. -/
def dataPoint (iface : LearnerInterface) (i : ℕ) (values : List Value) : Datapoint where
  categoricalData := [i]
  intData := List.replicate (iface.baseValue i) 0 ++
  (withDerived values).map (Value.data lboolValue) ++
    List.replicate ((iface.relations.drop (i + 1)).flatMap FuncDecl.attributes).length 0

/-- The conjunction for the relation of the data point holds. -/
def holdsOn (iface : LearnerInterface) (X : List (List ℕ)) (d : TeacherDatapoint) : Bool :=
  match iface.relations.idxOf? d.predicate with
  | some i => (X.getD i []).all fun c =>
      (Horndini.predicateAt iface.predicates c).holds (iface.dataPoint i d.values)
  | none => false

end LearnerInterface

/-- The tuple satisfies the counterexample, whose data points are recordable. -/
def TupleFits (iface : LearnerInterface) (X : List (List ℕ)) (ce : Smt.HornCounterexample α) :
    Prop :=
  ∃ lhs rhs, Converts iface ce lhs rhs ∧ (∀ d ∈ lhs ++ rhs, Recordable NotFalse d) ∧
    HoldsFor (fun d => iface.holdsOn X d = true) lhs rhs

/-- The strongest tuple of derived predicates that satisfies the counterexamples. -/
structure Strongest (iface : LearnerInterface) (ces : List (Smt.HornCounterexample α))
    (X : List (List ℕ)) : Prop where
  sub : Horndini.Sub X iface.derived
  fits : ∀ ce ∈ ces, TupleFits iface X ce
  strongest : ∀ Z, Horndini.Sub Z iface.derived → (∀ ce ∈ ces, TupleFits iface Z ce) →
    Horndini.Sub Z X

variable {iface : LearnerInterface} {ces : List (Smt.HornCounterexample α)} {s : Store}
  {X Z : List (List ℕ)} {d : TeacherDatapoint} {p i : ℕ} {hcs : List HornConstraint}

/-! ## The number of derived predicates -/

theorem length_predicates (iface : LearnerInterface) :
    iface.predicates.length = 9 * iface.integerIdentifier := by
  have hblock : ∀ n, (Horndini.generateDerivedPredicates
      ((List.range n).map fun i => (iface.baseValue i, iface.baseValue (i + 1))) 1).length =
        9 * iface.baseValue n := by
    intro n
    induction n with
    | zero => rfl
    | succ n ih =>
      have hmono := iface.baseValue_mono (Nat.le_succ n)
      rw [List.range_succ, List.map_append, Horndini.generateDerivedPredicates, List.flatMap_append,
        List.length_append]
      show (Horndini.generateDerivedPredicates _ 1).length + _ = _
      rw [ih, List.map_singleton, List.flatMap_singleton, Horndini.intervalPredicates,
        length_flatMap_attributePredicates, List.length_range']
      rw [Nat.succ_eq_add_one] at hmono
      omega
  rw [LearnerInterface.predicates, LearnerInterface.intervals, hblock, iface.baseValue_length]

theorem lt_length_predicates (hX : Horndini.Sub X iface.derived) {c : ℕ} (hc : c ∈ X.getD i []) :
    c < iface.predicates.length := by
  have := Horndini.derivedIntervals_bounds 1 iface.intervals ((hX.getD i).subset hc)
  unfold LearnerInterface.predicates
  omega

/-- The strongest tuple has fewer predicates after a counterexample that it does not
    satisfy. -/
theorem Strongest.weakens {answers : List (Smt.HornCounterexample α)} (h : Strongest iface ces X)
    (hviolated : ∃ ce ∈ answers, ¬ TupleFits iface X ce) (h' : Strongest iface (ces ++ answers) Z) :
    Z.flatten.length < X.flatten.length := by
  have hsub := h.strongest Z h'.sub fun ce hce => h'.fits ce (List.mem_append_left _ hce)
  by_contra hge
  obtain ⟨ce, hce, hno⟩ := hviolated
  rw [hsub.eq_of_length (by omega)] at h'
  exact hno (h'.fits ce (List.mem_append_right _ hce))

/-! ## Consistent tuples -/

/-- The tuple says of the derived data point what it says of the data point. -/
theorem Store.DataAt.holdsAt_eq (hnames : (iface.relations.map FuncDecl.name).Nodup)
    (h : DataAt iface s d p i) (hX : Horndini.Sub X iface.derived) :
    Horndini.holdsAt X (Horndini.generateDerivedDatapoint iface.predicates (s.point p)) =
      iface.holdsOn X d := by
  have hindex : iface.relations.idxOf? d.predicate = some i := by
    obtain ⟨hlt, hget⟩ := List.getElem?_eq_some_iff.mp h.relation
    refine List.idxOf?_eq_some_iff.mpr ⟨hlt, hget, fun j hj heq => ?_⟩
    have := (List.Nodup.getElem_inj_iff (List.Nodup.of_map _ hnames)).mp (heq.trans hget.symm)
    omega
  have hint : ∀ k, (s.point p).int k = (iface.dataPoint i d.values).int k := by
    intro k
    rw [Datapoint.int, h.data]
    rfl
  unfold Horndini.holdsAt LearnerInterface.holdsOn
  rw [show (Horndini.generateDerivedDatapoint iface.predicates (s.point p)).category 0 = i from
    h.category_eq, hindex, Horndini.satisfies_generateDerivedDatapoint fun c hc =>
      lt_length_predicates hX hc]
  refine congrArg (List.all (X.getD i [])) (funext fun c => ?_)
  unfold Horndini.DerivedPredicate.holds
  simp only [hint]

theorem exists_toSmt (d : TeacherDatapoint) : (∃ d', (d'.toSmt : Smt.TeacherDatapoint α) = d.toSmt ∧
    iface.holdsOn X d' = true) ↔ iface.holdsOn X d = true := by
  constructor
  · rintro ⟨d', heq, hd'⟩
    rwa [← toSmt_inj heq]
  · exact fun hd => ⟨d, rfl, hd⟩

/-- The counterexample holds for the data points on which the tuple holds. -/
theorem TupleFits.holds {ce : Smt.HornCounterexample α} (h : TupleFits iface X ce) :
    ce.Holds fun e => ∃ d, d.toSmt = e ∧ iface.holdsOn X d = true := by
  obtain ⟨lhs, rhs, hconv, -, hν⟩ := h
  refine hconv.holds_iff.mp fun hall => ?_
  obtain ⟨d, hd, hνd⟩ := hν fun d hd => (exists_toSmt d).mp (hall d hd)
  exact ⟨d, hd, (exists_toSmt d).mpr hνd⟩

/-- The data points of the pre-phase. -/
def derivedHeap (iface : LearnerInterface) (s : Store) (x : Ptr) : Datapoint :=
  Horndini.generateDerivedDatapoint iface.predicates (heapOf s.datapoints x)

/-- A tuple is consistent for the pre-phase iff it satisfies the counterexamples. -/
theorem fits_iff (hnames : (iface.relations.map FuncDecl.name).Nodup)
    (harity : ∀ decl ∈ iface.relations, 0 < decl.arity)
    (h : RecordedAll NotFalse iface lboolValue ces s)
    (hhcs : Boogie.indexes2hornConstraints s.datapoints.length s.hornIndexes = .ok hcs) :
    Horndini.Fits (derivedHeap iface s) (s.sample iface hcs).datapoints hcs iface.derived X ↔
      Horndini.Sub X iface.derived ∧ ∀ ce ∈ ces, TupleFits iface X ce := by
  -- the derived data points have the labels of the data points
  have hlabels : ∀ ν, Consistent (derivedHeap iface s) (s.sample iface hcs).datapoints hcs [] [] ν ↔
      Consistent (s.sample iface hcs).mem (s.sample iface hcs).datapoints hcs [] [] ν :=
    fun ν => consistent_congr (fun _ _ => rfl) ν
  have hpoint : Horndini.Sub X iface.derived → ∀ d, Recordable NotFalse d → ∀ p, Represented s d p →
      Horndini.holdsAt X (derivedHeap iface s (.point p)) = iface.holdsOn X d := by
    intro hX d hd p hp
    obtain ⟨i, hdata⟩ := h.sampled.dataAt_of_represented harity hd hp
    have hmem : (s.sample iface hcs).mem (.point p) = s.point p :=
      h.sampled.mem_point (h.sampled.represented_lt hp)
    rw [← hdata.holdsAt_eq hnames hX, ← hmem]
    rfl
  constructor
  · intro hfits
    have hmodels := h.sampled.models hhcs ((hlabels _).mp hfits.consistent)
    refine ⟨hfits.sub, fun ce hce => ?_⟩
    obtain ⟨lhs, rhs, hconv, hrec, hentry⟩ := h.entry ce hce
    refine ⟨lhs, rhs, hconv, hrec, hentry.holds hmodels fun d hd p hp => ?_⟩
    rw [hpoint hfits.sub d (hrec d hd) p hp]
  · rintro ⟨hX, hfits⟩
    have hmodels := h.models _ fun ce hce => (hfits ce hce).holds
    have hlabelling : ∀ p < s.nodes.length,
        Horndini.holdsAt X (derivedHeap iface s (.point p)) = true ↔
          labelling (fun d => ∃ d', (d'.toSmt : Smt.TeacherDatapoint α) = d.toSmt ∧
            iface.holdsOn X d' = true) s p := by
      intro p hp
      obtain ⟨d, i, hd, hrep, -⟩ := h.sampled.dataAt harity hp
      rw [hpoint hX d hd p hrep, h.sampled.labelling_iff hd.sorted hrep]
      exact (exists_toSmt d).symm
    obtain ⟨hcs', hhcs', -, hν⟩ := h.sampled.consistent hmodels
      (ν := fun x => Horndini.holdsAt X (derivedHeap iface s x)) hlabelling
    obtain rfl : hcs' = hcs := Except.ok.inj (hhcs'.symm.trans hhcs)
    exact ⟨hX, (hlabels _).mpr hν⟩

/-! ## The answer of the pre-phase -/

variable {call : Call} {F : Type} [Score F]

/-- If a tuple is consistent, then the pre-phase succeeds with the strongest one. -/
theorem prephase_strongest (hnames : (iface.relations.map FuncDecl.name).Nodup)
    (harity : ∀ decl ∈ iface.relations, 0 < decl.arity)
    (h : RecordedAll NotFalse iface lboolValue ces s)
    (hhcs : Boogie.indexes2hornConstraints s.datapoints.length s.hornIndexes = .ok hcs)
    (hpre : call.doHorndiniPrephase = true) (hfuel : hcs.length < call.iterations)
    (hex : ∃ Z, Horndini.Sub Z iface.derived ∧ ∀ ce ∈ ces, TupleFits iface Z ce) :
    ∃ X, Strongest iface ces X ∧ X.length = iface.relations.length ∧
      prephase (s.invocation iface call hcs) =
        .ok (some (Horndini.conjunctions2tree iface.relations.length iface.predicates X)) := by
  have hok := h.sampled.sample_ok harity hhcs
  have hlen : iface.intervals.length = iface.relations.length := by
    simp [LearnerInterface.intervals]
  have hcat : ∀ x ∈ (s.sample iface hcs).datapoints,
      ((s.sample iface hcs).mem x).category 0 < iface.intervals.length := by
    intro x hx
    rw [hlen]
    exact hok.points.category x hx
  obtain ⟨Z, hZ⟩ := hex
  obtain ⟨X, hrun, hfits, hmax⟩ := Horndini.horndiniPrephase_strongest hcat hok.valid.premises
    hok.valid.conclusion hfuel ⟨Z, (fits_iff hnames harity h hhcs).mpr hZ⟩
  obtain ⟨hsub, hholds⟩ := (fits_iff hnames harity h hhcs).mp hfits
  have hX : X.length = iface.intervals.length :=
    hsub.length_eq.trans (Horndini.derivedIntervals_length 1 iface.intervals 0)
  refine ⟨X, ⟨hsub, hholds, fun Z' hZ' hall => ?_⟩, hX.trans hlen, ?_⟩
  · exact hmax Z' ((fits_iff hnames harity h hhcs).mpr ⟨hZ', hall⟩)
  -- the tree passes the check
  have hout : ∀ x ∈ (s.sample iface hcs).datapoints,
      (Horndini.conjunctions2tree iface.intervals.length iface.predicates X).output
        ((s.sample iface hcs).mem x) = .ok (Horndini.holdsAt X (derivedHeap iface s x)) := by
    intro x hx
    rw [Horndini.conjunctions2tree_output hX.le (by rw [hX]; exact hcat x hx),
      ← Horndini.satisfies_generateDerivedDatapoint fun c hc => lt_length_predicates hsub hc]
    rfl
  have hconsistent := isConsistent_of_valuation rfl hout hfits.consistent.1 hok.valid
    hfits.consistent.2.2.2 (List.Perm.refl _)
  have htry : tryHorndini (s.invocation iface call hcs) =
      .ok (some (Horndini.conjunctions2tree iface.relations.length iface.predicates X)) := by
    rw [hlen] at hrun hconsistent
    exact bind_ok.mpr ⟨(), rfl, bind_ok.mpr ⟨_, hrun, bind_ok.mpr ⟨true, hconsistent, rfl⟩⟩⟩
  unfold prephase
  rw [show (s.invocation iface call hcs).doHorndiniPrephase = true from hpre, if_pos rfl, htry]

/-- The learner answers with the strongest tuple. -/
theorem getConjectures_strongest (hnames : (iface.relations.map FuncDecl.name).Nodup)
    (harity : ∀ decl ∈ iface.relations, 0 < decl.arity)
    (h : RecordedAll NotFalse iface lboolValue ces s)
    (hpre : call.doHorndiniPrephase = true) (hfuel : s.hornIndexes.length < call.iterations)
    (hex : ∃ Z, Horndini.Sub Z iface.derived ∧ ∀ ce ∈ ces, TupleFits iface Z ce) :
    ∃ X, Strongest iface ces X ∧ ∃ map, getConjectures F iface call s = .ok map ∧
      ∀ (s' : Store) d p i, Recordable NotFalse d → DataAt iface s' d p i →
        Explains map d (iface.holdsOn X d) := by
  obtain ⟨hcs, hhcs, hlen, -⟩ : ∃ hcs, Boogie.indexes2hornConstraints s.datapoints.length
    s.hornIndexes =
      .ok hcs ∧ hcs.length = s.hornIndexes.length ∧ (s.sample iface hcs).Satisfiable := by
    obtain ⟨Z, -, hZ⟩ := hex
    exact h.sampled.satisfiable (h.models _ fun ce hce => (hZ ce hce).holds)
  obtain ⟨X, hX, hXlen, hprephase⟩ := prephase_strongest hnames harity h hhcs hpre (by omega) hex
  set tree := Horndini.conjunctions2tree iface.relations.length iface.predicates X with htree
  have hintervals : iface.relations.length = iface.intervals.length := by
    simp [LearnerInterface.intervals]
  have hblock : tryBlock F (s.invocation iface call hcs) = .ok tree :=
    bind_ok.mpr ⟨(), (checkMetadata_ok rfl).mpr hintervals, bind_ok.mpr ⟨_, hprephase, rfl⟩⟩
  have hlearn : learnDecisionTree F iface call s = .ok (.returned tree) :=
    handleExceptions_returned.mpr <| bind_ok.mpr ⟨(), (checkMetadata_ok rfl).mpr hintervals,
      bind_ok.mpr ⟨hcs, hhcs, hblock⟩⟩
  have hread : Readable iface tree := conjunctions_readable hXlen hX.sub
  obtain ⟨map, hmap, -⟩ := hread.translated (s := s) hnames harity call.random
  refine ⟨X, hX, map, ?_, fun s' d p i hd hdata => ?_⟩
  · unfold getConjectures
    rw [hlearn]
    exact hmap
  · obtain ⟨map', hmap', hexplains⟩ := hread.translated (s := s') hnames harity call.random
    obtain rfl : map' = map := Except.ok.inj (hmap'.symm.trans hmap)
    refine hexplains d p i _ hd hdata ?_
    have hcat : (s'.point p).category 0 < X.length := by
      rw [hdata.category_eq, hXlen]
      exact (List.getElem?_eq_some_iff.mp hdata.relation).1
    rw [htree, Horndini.conjunctions2tree_output hXlen.le hcat, ← hdata.holdsAt_eq hnames hX.sub]
    rw [← Horndini.satisfies_generateDerivedDatapoint fun c hc => lt_length_predicates hX.sub hc]
    rfl

/-! ## Runs -/

/-- What `get_conjectures` may return with the pre-phase. -/
def HoudiniAnswer (F : Type) [Score F] (iface : LearnerInterface)
    (ces : List (Smt.HornCounterexample α)) (conjectures : Smt.ConjectureMap) : Prop :=
  ∃ s call map, recordAll iface lboolValue ces = .ok s ∧ call.doHorndiniPrephase = true ∧
    s.hornIndexes.length < call.iterations ∧ getConjectures F iface call s = .ok map ∧
      conjectures = map.toSmt iface

/-- A call in which only the pre-phase can find a tree. -/
def prephaseOnly (iterations : ℕ) : Call where
  useBounds := false
  doHorndiniPrephase := true
  env _ := .stable
  steps := 0
  attempts := 0
  iterations := iterations
  random _ := false

/-- A solution whose relations are conjunctions of derived predicates on the recordable data
    points. -/
structure ConjunctiveSolution (T : Theory α) (p : Smt.Problem) (iface : LearnerInterface)
    (I : Interp α) (Z : List (List ℕ)) : Prop where
  solution : p.Solution T I
  sub : Horndini.Sub Z iface.derived
  conjunctive : ∀ d : TeacherDatapoint, Recordable NotFalse d → d.predicate ∈ iface.relations →
    ((I d.predicate.toDecl (d.values.map Value.toVal)).truth = true ↔ iface.holdsOn Z d = true)

theorem HoudiniAnswer.answer {conjectures : Smt.ConjectureMap}
    (h : HoudiniAnswer F iface ces conjectures) :
    Answer F iface ces conjectures := by
  obtain ⟨s, call, map, hs, -, -, hmap, rfl⟩ := h
  exact ⟨s, call, map, hs, hmap, rfl⟩

/-- The tuple of the solution satisfies the recorded counterexamples. -/
theorem ConjunctiveSolution.fits {T : Theory α} {p : Smt.Problem} {I : Interp α}
    (hI : ConjunctiveSolution T p iface I Z) (h : RecordedAll NotFalse iface lboolValue ces s)
    (hν : ∀ ce ∈ ces, ce.Holds fun d => (I d.predicate d.values).truth = true) :
    ∀ ce ∈ ces, TupleFits iface Z ce := by
  intro ce hce
  obtain ⟨lhs, rhs, hconv, hrec, -⟩ := h.entry ce hce
  have hiff : ∀ d ∈ lhs ++ rhs, (I d.predicate.toDecl (d.values.map Value.toVal)).truth = true ↔
      iface.holdsOn Z d = true := fun d hd => hI.conjunctive d (hrec d hd) (hconv.relations d hd)
  refine ⟨lhs, rhs, hconv, hrec, fun hall => ?_⟩
  obtain ⟨d, hd, hνd⟩ := hconv.holds_iff.mpr (hν ce hce) fun d hd =>
    (hiff d (List.mem_append_left _ hd)).mpr (hall d hd)
  exact ⟨d, hd, (hiff d (List.mem_append_right _ hd)).mp hνd⟩

/-- Conjectures that explain a tuple fit the recorded counterexamples that the tuple
    satisfies. -/
theorem fits_of_explains {T : Theory α} (hT : Arithmetic T) {map : ConjectureMap}
    (hsorted : map.WellSorted) (harity : ∀ decl ∈ iface.relations, 0 < decl.arity)
    (h : RecordedAll NotFalse iface lboolValue ces s)
    (hexplains : ∀ d p i, Recordable NotFalse d → DataAt iface s d p i →
      Explains map d (iface.holdsOn X d))
    {ce : Smt.HornCounterexample α} (hce : ce ∈ ces) (hX : TupleFits iface X ce) :
    Smt.Fits T (map.toSmt iface) ce := by
  obtain ⟨lhs, rhs, hconv, hrec, hentry⟩ := h.entry ce hce
  have htruth : ∀ d ∈ lhs ++ rhs,
      (∀ c, map.toSmt iface d.predicate.toDecl = some c → c.WellFormed) ∧
        Smt.truthOn T (map.toSmt iface) d.toSmt = some (iface.holdsOn X d) := by
    intro d hd
    obtain ⟨p, hp⟩ := hentry.represented d hd
    obtain ⟨i, hdata⟩ := h.sampled.dataAt_of_represented harity (hrec d hd) hp
    exact (hexplains d p i (hrec d hd) hdata).toSmt hT hsorted (hconv.relations d hd)
      (hrec d hd).sorted
  refine ⟨fun d hd c hc => ?_, hconv.holds_iff.mp fun hall => ?_⟩
  · rw [← hconv.left, ← hconv.right, ← List.map_append] at hd
    obtain ⟨d', hd', rfl⟩ := List.mem_map.mp hd
    exact (htruth d' hd').1 c hc
  · obtain ⟨lhs', rhs', hconv', -, hν⟩ := hX
    have hlhs : lhs' = lhs := List.map_injective_iff.mpr (fun _ _ => toSmt_inj)
      (hconv'.left.trans hconv.left.symm)
    have hrhs : rhs' = rhs := List.map_injective_iff.mpr (fun _ _ => toSmt_inj)
      (hconv'.right.trans hconv.right.symm)
    subst hlhs hrhs
    obtain ⟨d, hd, hνd⟩ := hν fun d hd => by
      have hd' := (htruth d (List.mem_append_left _ hd)).2
      rw [hall d hd] at hd'
      exact (Option.some.inj hd').symm
    exact ⟨d, hd, (htruth d (List.mem_append_right _ hd)).2.trans (congrArg some hνd)⟩

section Runs

variable {T : Theory α} {check : Smt.Solver α} {fp : Smt.Fixedpoint} {p : Smt.Problem}
    {I : Interp α}
  {tried : List Smt.ConjectureMap} {s : Smt.LearnState α}

/-- The strongest tuple for the counterexamples of a run, and the answer that it leads to. -/
theorem head_strongest (hT : Arithmetic T) (hcheck : check.Correct T)
    (hparse : Smt.parse fp = .ok p)
    (hshape : ∀ chc ∈ p.chcs, Smt.HornClause chc.expr) (hproper : ProperArguments T p)
    (h : InterfaceFor p iface) (hI : ConjunctiveSolution T p iface I Z)
    (hhead : Smt.Head (HoudiniAnswer F iface) check p tried s) {store : Store} {call : Call}
    (hstore : recordAll iface lboolValue s.counterexamples = .ok store)
    (hpre : call.doHorndiniPrephase = true) (hfuel : store.hornIndexes.length < call.iterations) :
    ∃ X, Strongest iface s.counterexamples X ∧ ∃ map, getConjectures F iface call store = .ok map ∧
      ∀ (s' : Store) d p i, Recordable NotFalse d → DataAt iface s' d p i →
        Explains map d (iface.holdsOn X d) := by
  have hanswers := hhead.imp fun _ _ hanswer => hanswer.answer
  have hrecorded := recordAll_spec (head_allRecordable hcheck hproper h hT hanswers) hstore
  have hν := ((head_learned hcheck hproper h hT hanswers).imp fun _ _ hl =>
    hl.overVars).keeps_solutions hcheck hparse hshape hI.solution
  exact getConjectures_strongest h.names h.arity hrecorded hpre hfuel
    ⟨Z, hI.sub, hI.fits hrecorded hν⟩

/-- There is a store with the data point. -/
theorem Store.Admissible.dataAt (harity : ∀ decl ∈ iface.relations, 0 < decl.arity)
    (hd : Admissible iface d) : ∃ s p i, DataAt iface s d p i := by
  obtain ⟨i, d₁, hi, hd₁⟩ := hd.learnerDatapoint harity
  have hplain : d₁ = { intData := d₁.intData, categoricalData := [i] } := by
    obtain ⟨data, -, hrun⟩ := bind_ok.mp hd₁
    rw [← Except.ok.inj hrun]
  let s : Store := { objects := fun _ => d, nodes := [(d.extended, d₁)] }
  have hnode : NodeAt iface lboolValue s d 0 := by
    refine ⟨rfl, i, d₁, hi, hd₁, ?_⟩
    show unlabelled d₁ = _
    rw [hplain]
    rfl
  obtain ⟨j, hdata⟩ := hnode.dataAt harity hd.recordable
  exact ⟨s, 0, j, hdata⟩

/-- The conjectures say on all data points what the strongest tuple for the counterexamples
    says. -/
def StrongestAnswer (T : Theory α) (iface : LearnerInterface)
    (ces : List (Smt.HornCounterexample α)) (conjectures : Smt.ConjectureMap) : Prop :=
  ∃ X, Strongest iface ces X ∧ ∀ d, Admissible iface d →
    Smt.truthOn T conjectures d.toSmt = some (iface.holdsOn X d)

/-- Every answer is the strongest conjunction for the counterexamples of the run. -/
theorem head_strongestAnswer (hT : Arithmetic T) (hcheck : check.Correct T)
    (hparse : Smt.parse fp = .ok p) (hshape : ∀ chc ∈ p.chcs, Smt.HornClause chc.expr)
    (hproper : ProperArguments T p) (h : InterfaceFor p iface)
    (hI : ConjunctiveSolution T p iface I Z)
    (hhead : Smt.Head (HoudiniAnswer F iface) check p tried s) {conjectures : Smt.ConjectureMap}
    (hanswer : HoudiniAnswer F iface s.counterexamples conjectures) :
    StrongestAnswer T iface s.counterexamples conjectures := by
  obtain ⟨store, call, map, hstore, hpre, hfuel, hmap, rfl⟩ := hanswer
  obtain ⟨X, hX, map', hmap', hexplains⟩ :=
    head_strongest hT hcheck hparse hshape hproper h hI hhead hstore hpre hfuel
  obtain rfl : map' = map := Except.ok.inj (hmap'.symm.trans hmap)
  refine ⟨X, hX, fun d hd => ?_⟩
  obtain ⟨s', p', i, hdata⟩ := hd.dataAt h.arity
  have hexplained := hexplains s' d p' i hd.recordable hdata
  exact (hexplained.toSmt hT (getConjectures_wellSorted hmap) hd.relation hd.recordable.sorted).2

/-- While a clause is not satisfied, the strongest tuples and the counterexamples are a session
    in which every tuple is refuted. -/
theorem head_session (hT : Arithmetic T) (hcheck : check.Correct T) (hparse : Smt.parse fp = .ok p)
    (hshape : ∀ chc ∈ p.chcs, Smt.HornClause chc.expr) (hproper : ProperArguments T p)
    (h : InterfaceFor p iface) (hI : ConjunctiveSolution T p iface I Z)
    (hhead : Smt.Head (HoudiniAnswer F iface) check p tried s) :
    ∀ store, recordAll iface lboolValue s.counterexamples = .ok store → s.unsatisfiedChcs ≠ [] →
      ∃ tuples, tuples.length = tried.length ∧
        Ice.Session (fun X ce => TupleFits iface X ce) (Strongest iface) tuples
          s.counterexamples := by
  induction hhead with
  | start => exact fun _ _ _ => ⟨[], rfl, .start⟩
  | @next tried s s' conjectures hhead hne hanswer hrun ih =>
    intro store₁ hstore₁ hopen
    have hanswers := hhead.imp fun _ _ hanswer => hanswer.answer
    have hrec := head_allRecordable hcheck hproper h hT hanswers
    have hhonest := (answer_honest h hT hrec hanswer.answer).honest
    have hrec₁ := head_allRecordable hcheck hproper h hT (.next hanswers hne hanswer.answer hrun)
    have hrecorded₁ := recordAll_spec hrec₁ hstore₁
    obtain ⟨store, call, map, hstore, hpre, hfuel, hmap, rfl⟩ := hanswer
    obtain ⟨tuples, hlen, hsession⟩ := ih store hstore hne
    obtain ⟨X, hX, map', hmap', hexplains⟩ :=
      head_strongest hT hcheck hparse hshape hproper h hI hhead hstore hpre hfuel
    obtain rfl : map' = map := Except.ok.inj (hmap'.symm.trans hmap)
    -- a clause is violated for the answer
    have hclauses : ∀ chc ∈ p.chcs, Smt.HornShaped chc :=
      fun chc hchc => ⟨Smt.parse_clause hparse hchc, hshape chc hchc⟩
    have hrel : ∀ chc ∈ p.chcs, ∀ decl ∈ chc.uninterpretedPredicates, decl ∈ p.relations :=
      fun _ hchc => Smt.parse_predicates hparse hchc
    have hhonests := (head_learned hcheck hproper h hT hanswers).imp fun _ _ hl => hl.honest
    obtain ⟨⟨answers, hces, hunsat⟩, hprevious⟩ := Smt.iteration_witnessed hcheck hclauses hrel
      hhonests.honest.inv (hhonests.inv hcheck hclauses hrel).1 hhonest hrun
    obtain ⟨chc, hchc⟩ := List.exists_mem_of_ne_nil _ hopen
    obtain ⟨hmem, ce, hce, hviolated⟩ := hunsat chc hchc
    rw [hprevious] at hviolated
    refine ⟨tuples ++ [X], by rw [List.length_append, List.length_append, hlen]; rfl, ?_⟩
    rw [hces] at hrecorded₁ ⊢
    refine hsession.round hX ⟨ce, hce, fun hfits => ?_⟩
    exact Smt.not_fits hcheck (hclauses chc hmem) hviolated (fun _ _ => rfl)
      (fits_of_explains hT (getConjectures_wellSorted hmap) h.arity hrecorded₁ (hexplains store₁)
        (List.mem_append_right _ hce) hfits)

/-- The number of answers is bounded by the number of derived predicates. -/
theorem head_length_le (hT : Arithmetic T) (hcheck : check.Correct T)
    (hparse : Smt.parse fp = .ok p)
    (hshape : ∀ chc ∈ p.chcs, Smt.HornClause chc.expr) (hproper : ProperArguments T p)
    (h : InterfaceFor p iface) (hI : ConjunctiveSolution T p iface I Z)
    (hhead : Smt.Head (HoudiniAnswer F iface) check p tried s) {store : Store}
    (hstore : recordAll iface lboolValue s.counterexamples = .ok store)
    (hopen : s.unsatisfiedChcs ≠ []) : tried.length ≤ 9 * iface.integerIdentifier := by
  obtain ⟨tuples, hlen, hsession⟩ := head_session hT hcheck hparse hshape hproper h hI hhead store
    hstore hopen
  obtain ⟨X, hX, -⟩ := head_strongest hT hcheck hparse hshape hproper h hI hhead hstore
    (show (prephaseOnly (store.hornIndexes.length + 1)).doHorndiniPrephase = true from rfl)
    (Nat.lt_succ_self _)
  have hbound : ∀ ces (X : List (List ℕ)), Strongest (α := α) iface ces X →
      X.flatten.length ≤ 9 * iface.integerIdentifier := by
    intro ces X hX
    rw [← length_predicates iface, LearnerInterface.predicates,
      ← Horndini.length_flatten_derivedIntervals 1 iface.intervals 0]
    exact hX.sub.length_le
  have hdecreases := hsession.length_le_measure (fun X => X.flatten.length)
    (fun _ _ _ _ hX hviolated hX' => hX.weakens hviolated hX') hbound
  have := hdecreases.2 X hX
  omega

/-- What the pre-phase achieves in a run: the next answer is the strongest conjunction for
    the counterexamples, the number of answers is bounded, a run whose values fit into an
    `int` goes on, and it comes to an end. -/
structure Houdini (F : Type) [Score F] (T : Theory α) (check : Smt.Solver α)
    (iface : LearnerInterface) (p : Smt.Problem) (tried : List Smt.ConjectureMap)
    (s : Smt.LearnState α) : Prop where
  strongest : ∀ conjectures, HoudiniAnswer F iface s.counterexamples conjectures →
    StrongestAnswer T iface s.counterexamples conjectures
  bounded : tried.length ≤ 9 * iface.integerIdentifier + 1
  advances : s.unsatisfiedChcs ≠ [] → SmallValues s.counterexamples →
    tried.length ≤ 9 * iface.integerIdentifier ∧
      ∃ store, recordAll iface lboolValue s.counterexamples = .ok store ∧
        ∀ call : Call, call.doHorndiniPrephase = true → store.hornIndexes.length < call.iterations →
          ∃ map s', getConjectures F iface call store = .ok map ∧
            Smt.iteration check (map.toSmt iface) s = .ok s'
  ends : (∀ later s', Smt.Head (HoudiniAnswer F iface) check p (tried ++ later) s' →
      SmallValues s'.counterexamples) →
    ∃ later s', Smt.Head (HoudiniAnswer F iface) check p (tried ++ later) s' ∧
    s'.unsatisfiedChcs = []

theorem head_bounded (hT : Arithmetic T) (hcheck : check.Correct T) (hparse : Smt.parse fp = .ok p)
    (hshape : ∀ chc ∈ p.chcs, Smt.HornClause chc.expr) (hproper : ProperArguments T p)
    (h : InterfaceFor p iface) (hI : ConjunctiveSolution T p iface I Z)
    (hhead : Smt.Head (HoudiniAnswer F iface) check p tried s) :
    tried.length ≤ 9 * iface.integerIdentifier + 1 := by
  cases hhead with
  | start => exact Nat.zero_le _
  | next hhead hne hanswer _ =>
    obtain ⟨store, _, _, hstore, -⟩ := hanswer
    have := head_length_le hT hcheck hparse hshape hproper h hI hhead hstore hne
    rw [List.length_append, List.length_singleton]
    omega

/-- While a clause is not satisfied, the learner has a next answer. -/
theorem head_advances (hT : Arithmetic T) (hcheck : check.Correct T) (hdecides : check.Decides)
    (hparse : Smt.parse fp = .ok p) (hshape : ∀ chc ∈ p.chcs, Smt.HornClause chc.expr)
    (hexpr : ∀ chc ∈ p.chcs, Smt.Expression chc.expr) (hproper : ProperArguments T p)
    (h : InterfaceFor p iface) (hI : ConjunctiveSolution T p iface I Z)
    (hhead : Smt.Head (HoudiniAnswer F iface) check p tried s)
    (hsmall : SmallValues s.counterexamples) :
    ∃ store, recordAll iface lboolValue s.counterexamples = .ok store ∧
      ∀ call : Call, call.doHorndiniPrephase = true → store.hornIndexes.length < call.iterations →
        ∃ map s', getConjectures F iface call store = .ok map ∧
          Smt.iteration check (map.toSmt iface) s = .ok s' := by
  have hanswers := hhead.imp fun _ _ hanswer => hanswer.answer
  obtain ⟨store, hstore⟩ := head_recorded hT hcheck hparse hshape hproper h hI.solution hanswers
    hsmall
  refine ⟨store, hstore, fun call hpre hfuel => ?_⟩
  obtain ⟨X, -, map, hmap, -⟩ :=
    head_strongest hT hcheck hparse hshape hproper h hI hhead hstore hpre hfuel
  obtain ⟨s', hrun⟩ := answer_iterates hT hdecides hparse hexpr h hanswers
    ⟨store, call, map, hstore, hmap, rfl⟩
  exact ⟨map, s', hmap, hrun⟩

/-- The run comes to its end if all values fit into an `int`. -/
theorem head_ends (hT : Arithmetic T) (hcheck : check.Correct T) (hdecides : check.Decides)
    (hparse : Smt.parse fp = .ok p) (hshape : ∀ chc ∈ p.chcs, Smt.HornClause chc.expr)
    (hexpr : ∀ chc ∈ p.chcs, Smt.Expression chc.expr) (hproper : ProperArguments T p)
    (h : InterfaceFor p iface) (hI : ConjunctiveSolution T p iface I Z) :
    ∀ (tried : List Smt.ConjectureMap) (s : Smt.LearnState α),
      Smt.Head (HoudiniAnswer F iface) check p tried s →
      (∀ later s', Smt.Head (HoudiniAnswer F iface) check p (tried ++ later) s' →
        SmallValues s'.counterexamples) →
      ∃ later s', Smt.Head (HoudiniAnswer F iface) check p (tried ++ later) s' ∧
        s'.unsatisfiedChcs = [] := by
  intro tried s hhead hsmall
  -- by induction on the number of answers that are left
  obtain ⟨n, hn⟩ : ∃ n, 9 * iface.integerIdentifier + 1 - tried.length = n := ⟨_, rfl⟩
  induction n generalizing tried s with
  | zero =>
    refine ⟨[], s, by rwa [List.append_nil], ?_⟩
    by_contra hopen
    obtain ⟨store, hstore, -⟩ := head_advances hT hcheck hdecides hparse hshape hexpr hproper h hI
      hhead (hsmall [] s (by rwa [List.append_nil]))
    have := head_length_le hT hcheck hparse hshape hproper h hI hhead hstore hopen
    omega
  | succ n ih =>
    by_cases hopen : s.unsatisfiedChcs = []
    · exact ⟨[], s, by rwa [List.append_nil], hopen⟩
    obtain ⟨store, hstore, hnext⟩ := head_advances hT hcheck hdecides hparse hshape hexpr hproper h
      hI hhead (hsmall [] s (by rwa [List.append_nil]))
    obtain ⟨map, s', hmap, hrun⟩ := hnext (prephaseOnly (store.hornIndexes.length + 1)) rfl
      (Nat.lt_succ_self _)
    have hanswer : HoudiniAnswer F iface s.counterexamples (map.toSmt iface) :=
      ⟨store, _, map, hstore, rfl, Nat.lt_succ_self _, hmap, rfl⟩
    obtain ⟨later, s'', hlater, hend⟩ := ih (tried ++ [map.toSmt iface]) s'
      (.next hhead hopen hanswer hrun)
      (fun later s'' hlater => hsmall ([map.toSmt iface] ++ later) s''
      (by rwa [← List.append_assoc])) (by rw [List.length_append, List.length_singleton]; omega)
    exact ⟨[map.toSmt iface] ++ later, s'', by rwa [← List.append_assoc], hend⟩

/-- If the problem has a conjunctive solution, then in a run with the pre-phase every answer is
    the strongest conjunction, there are at most nine answers for each attribute and one more,
    and the run can only stop because all clauses are satisfied. -/
theorem learn2_houdini (F : Type) [Score F] (T : Theory α) (hT : Arithmetic T)
    (check : Smt.Solver α) (hcheck : check.Correct T) (hdecides : check.Decides)
    (fp : Smt.Fixedpoint) (p : Smt.Problem) (hparse : Smt.parse fp = .ok p)
    (hshape : ∀ chc ∈ p.chcs, Smt.HornClause chc.expr)
    (hexpr : ∀ chc ∈ p.chcs, Smt.Expression chc.expr) (hproper : ProperArguments T p)
    (iface : LearnerInterface) (hiface : InterfaceFor p iface) (I : Interp α) (Z : List (List ℕ))
    (hI : ConjunctiveSolution T p iface I Z) (tried : List Smt.ConjectureMap) (s : Smt.LearnState α)
    (hhead : Smt.Head (HoudiniAnswer F iface) check p tried s) :
    Houdini F T check iface p tried s := by
  refine ⟨fun _ => head_strongestAnswer hT hcheck hparse hshape hproper hiface hI hhead,
    head_bounded hT hcheck hparse hshape hproper hiface hI hhead, fun hopen hsmall => ?_,
    fun hsmall => ?_⟩
  · obtain ⟨store, hstore, hnext⟩ :=
      head_advances hT hcheck hdecides hparse hshape hexpr hproper hiface hI hhead hsmall
    exact ⟨head_length_le hT hcheck hparse hshape hproper hiface hI hhead hstore hopen, store,
      hstore, hnext⟩
  · exact head_ends hT hcheck hdecides hparse hshape hexpr hproper hiface hI _ _ hhead hsmall

end Runs

/-! ## The query `flag` with the pre-phase -/

/-- The conjunction `x ≤ 0`, where `x` is 1 for true. -/
theorem flag_conjunctive :
    ConjunctiveSolution linear ⟨[Smt.flag], [flagSafe]⟩ flagOnly Smt.zeros [[4]] where
  solution := zeros_solution
  sub := .cons (by decide) .nil
  conjunctive := by
    rintro ⟨decl, values⟩ hd hrelation
    obtain rfl : decl = ⟨"flag@", [.bool]⟩ := List.mem_singleton.mp hrelation
    refine iff_of_false (fun htrue => ?_) fun hholds => ?_
    · rw [show (Smt.zeros _ _ : Val Unit).truth = false from rfl] at htrue
      cases htrue
    · obtain rfl : values = [.bool true] := by
        have hsorted : values.map Value.sort = [.bool] := hd.sorted
        obtain ⟨v, rfl, hv⟩ := List.map_eq_singleton_iff.mp hsorted
        cases v with
        | int n => cases hv
        | bool b =>
          cases b with
          | true => rfl
          | false => exact absurd rfl (hd.values _ (List.mem_singleton_self _))
      rw [show flagOnly.holdsOn [[4]] ⟨⟨"flag@", [.bool]⟩, [.bool true]⟩ =
        false by decide] at hholds
      cases hholds

/-- The counterexamples have no integers. -/
theorem flagSafe_smallValues {tried : List Smt.ConjectureMap} {s : Smt.LearnState Unit}
    (hhead : Smt.Head (Answer ℝ flagOnly) (oracle linear) ⟨[Smt.flag], [flagSafe]⟩ tried s) :
    SmallValues s.counterexamples := by
  intro ce hce d hd n hn
  obtain ⟨chc, hchc, _, hrun⟩ := hhead.found
    (fun _ _ hanswer => answer_covers flagOnly_interface linear_arithmetic hanswer) hce
  obtain ⟨e, _, ⟨_, hnone⟩ | ⟨eval, hsat, hsome⟩⟩ := Smt.checkChc_cases hrun
  · cases hnone
  obtain ⟨K, _, _, heval⟩ := (oracle_correct linear).sat _ _ hsat
  obtain rfl := Option.some.inj hsome
  rw [List.mem_singleton.mp hchc] at hd
  have hpoint : d.toSmt = (⟨Smt.flag, [.bool true]⟩ : Smt.TeacherDatapoint Unit) := by
    rw [List.mem_singleton.mp hd, Smt.extractDatapoint]
    simp [heval, Op.eval]
  obtain rfl : d = ⟨⟨"flag@", [.bool]⟩, [.bool true]⟩ := toSmt_inj hpoint
  simp [withDerived, pairs] at hn

/-- The run with the pre-phase ends. -/
theorem learn2_houdini_flagQuery : ∃ tried s,
    Smt.Head (HoudiniAnswer ℝ flagOnly) (oracle linear) ⟨[Smt.flag], [flagSafe]⟩ tried s ∧
      s.unsatisfiedChcs = [] ∧ tried.length ≤ 10 ∧
      ∀ conjectures, HoudiniAnswer ℝ flagOnly s.counterexamples conjectures →
        StrongestAnswer linear flagOnly s.counterexamples conjectures := by
  have hrun := learn2_houdini ℝ linear linear_arithmetic _ (oracle_correct linear)
    (oracle_decides linear)
    flagQuery _ parse_flagQuery flagSafe_hornClause flagSafe_expression flagSafe_properArguments
    flagOnly flagOnly_interface _ _ flag_conjunctive
  obtain ⟨tried, s, hhead, hend⟩ := (hrun [] _ .start).ends fun later s' hlater =>
    flagSafe_smallValues (hlater.imp fun _ _ hanswer => hanswer.answer)
  have hachieved := hrun tried s hhead
  exact ⟨tried, s, hhead, hend, hachieved.bounded, hachieved.strongest⟩

end HiceDt.Chc
