import HiceDt.Chc.Independent
import HiceDt.Chc.Recorded
import HiceDt.Learner.Shape
import HiceDt.Main.Api
import HiceDt.Main.Indexing

/-!
# Conjectures for the recorded counterexamples

Model of `get_conjectures` (`chc_verifier/include/learner_interface.h`, lines 319–335) with
`api::learn_decision_tree` (`hice-dt/include/api.h`, lines 104–120): the learner runs on
copies of the data points, and its tree is translated to conjectures.

Results:

* `Sampled.sample_ok`: what the learner expects of its input.
* `Sampled.learnDecisionTree_delivered`: the trees that the learner returns.
* `getConjectures_fits`: the conjectures satisfy all recorded counterexamples.
-/

namespace HiceDt.Chc

open HiceDt Loop Fol Solver Learner Main

variable {α : Type}

/-! ## One call of the learner -/

/-- The options of the learner, its platform and the bounds on its loops in one call;
    `random` is what `rand ()%2` yields for relations that are not in the tree. -/
structure Call where
  useBounds : Bool
  doHorndiniPrephase : Bool
  env : ℕ → Environment
  steps : ℕ
  attempts : ℕ
  iterations : ℕ
  random : FuncDecl → Bool

/-- The intervals of the relations (`learner_interface.h`, line 182), given by the first
    attribute and the one after the last attribute. -/
def LearnerInterface.intervals (iface : LearnerInterface) : List (ℕ × ℕ) :=
  (List.range iface.relations.length).map fun i => (iface.baseValue i, iface.baseValue (i + 1))

/-- The value is not `false`: for `false` the learner gets -1, and its cuts are compared with
    0 and 1. -/
def NotFalse (v : Value) : Prop := v ≠ .bool false

namespace Store

/-- `datapoints_copy`. -/
def datapoints (s : Store) : List Datapoint := s.datapointPtrs.map s.point

/-- What the learner gets. -/
def sample (iface : LearnerInterface) (s : Store) (hornConstraints : List HornConstraint) :
    Learner.Sample where
  mem := heapOf s.datapoints
  datapoints := pointers s.datapoints.length
  hornConstraints := hornConstraints
  numberOfCategories := [iface.relations.length]

/-- The call with its data. -/
def invocation (iface : LearnerInterface) (call : Call) (s : Store)
    (hornConstraints : List HornConstraint) : Invocation where
  useBounds := call.useBounds
  doHorndiniPrephase := call.doHorndiniPrephase
  intAttributes := iface.integerIdentifier
  sample := s.sample iface hornConstraints
  intervals := iface.intervals
  env := call.env
  steps := call.steps
  attempts := call.attempts
  iterations := call.iterations

/-- `api::learn_decision_tree`; the Horn constraints are made of their indices after the
    checks of the meta data. -/
def learnDecisionTree (F : Type) [Score F] (iface : LearnerInterface) (call : Call) (s : Store) :
    Except Error Completion :=
  handleExceptions do
    checkMetadata (s.invocation iface call [])
    let hornConstraints ← Boogie.indexes2hornConstraints s.datapoints.length s.hornIndexes
    tryBlock F (s.invocation iface call hornConstraints)

/-- `get_conjectures`; a learner that comes to the end of its function returns nothing. -/
def getConjectures (F : Type) [Score F] (iface : LearnerInterface) (call : Call) (s : Store) :
    Except Error ConjectureMap :=
  match learnDecisionTree F iface call s with
  | .ok (.returned tree) => getUnorderedMap iface call.random tree
  | .ok (.endReached _) => .error .undefinedBehaviour
  | .error e => .error e

/-! ## The input of the learner -/

variable {iface : LearnerInterface} {s : Store} {hcs : List HornConstraint} {call : Call} {p : ℕ}
  {d : TeacherDatapoint} {F : Type} [Score F]

theorem Sampled.length_datapoints {V : Value → Prop} {boolValue : Bool → ℤ}
    (h : Sampled V iface boolValue s) :
    s.datapoints.length = s.nodes.length := by
  rw [datapoints, List.length_map, h.ptrs, List.length_range]

/-- The copies of the data points. -/
theorem Sampled.mem_point {V : Value → Prop} {boolValue : Bool → ℤ}
    (h : Sampled V iface boolValue s) (hp : p < s.nodes.length) :
    (s.sample iface hcs).mem (.point p) = s.point p := by
  show s.datapoints.getD p {} = s.point p
  have hlt : p < s.datapoints.length := by rwa [h.length_datapoints]
  rw [List.getD_eq_getElem _ _ hlt]
  simp only [datapoints, h.ptrs, List.getElem_map, List.getElem_range]

theorem Sampled.mem_datapoints {V : Value → Prop} {boolValue : Bool → ℤ}
    (h : Sampled V iface boolValue s) {x : Ptr} :
    x ∈ (s.sample iface hcs).datapoints ↔ ∃ p < s.nodes.length, x = .point p := by
  show x ∈ (List.range s.datapoints.length).map Ptr.point ↔ _
  simp only [h.length_datapoints, List.mem_map, List.mem_range, eq_comm]

/-- The data of a node: its relation, and the values between zeros. -/
structure DataAt (iface : LearnerInterface) (s : Store) (d : TeacherDatapoint) (p i : ℕ) :
    Prop where
  relation : iface.relations[i]? = some d.predicate
  category : (s.point p).categoricalData = [i]
  data : (s.point p).intData = List.replicate (iface.baseValue i) 0 ++
    (withDerived d.values).map (Value.data lboolValue) ++
      List.replicate ((iface.relations.drop (i + 1)).flatMap FuncDecl.attributes).length 0
  learner : ∃ d₁, learnerDatapoint iface lboolValue i d.values = .ok d₁ ∧
    d₁.intData = (s.point p).intData

theorem idxOf?_some {relations : List FuncDecl} {decl : FuncDecl} {i : ℕ}
    (h : relations.idxOf? decl = some i) : relations[i]? = some decl := by
  obtain ⟨hlt, hget, -⟩ := List.idxOf?_eq_some_iff.mp h
  rw [List.getElem?_eq_getElem hlt, hget]

theorem NodeAt.dataAt (harity : ∀ decl ∈ iface.relations, 0 < decl.arity)
    (hd : Recordable NotFalse d)
    (h : NodeAt iface lboolValue s d p) : ∃ i, DataAt iface s d p i := by
  obtain ⟨i, d₁, hi, hd₁, hpoint⟩ := h.data
  have hrel := idxOf?_some hi
  have hpos := harity _ (List.mem_of_getElem? hrel)
  have hcore : (s.point p).categoricalData = d₁.categoricalData ∧
      (s.point p).intData = d₁.intData := by
    have hcat := congrArg Datapoint.categoricalData hpoint
    have hint := congrArg Datapoint.intData hpoint
    exact ⟨hcat, hint⟩
  have hrun := hd₁
  obtain ⟨data, hdata, hret⟩ := bind_ok.mp hrun
  have hret' := Except.ok.inj hret
  subst hret'
  refine ⟨i, hrel, hcore.1, ?_, _, hd₁, hcore.2.symm⟩
  have hblock := length_withDerived hd.sorted
  have hnumber := LearnerInterface.integerIdentifier_eq hrel
  have hle := FuncDecl.arity_le_attributes d.predicate
  rw [getIntData_eq (by omega) (by omega)] at hdata
  obtain ⟨block, hmap, hret⟩ := bind_ok.mp hdata
  have hblock' : block = (withDerived d.values).map (Value.data lboolValue) := by
    rw [← List.forall₂_eq_eq_eq, List.forall₂_map_right_iff]
    refine List.Forall₂.flip ((mapM_ok hmap).imp fun v n hvn => ?_)
    cases v with
    | bool b => exact (Except.ok.inj hvn).symm
    | int m =>
      obtain ⟨_, -, hm⟩ := bind_ok.mp hvn
      exact (Except.ok.inj hm).symm
  have hrest : iface.integerIdentifier - iface.baseValue i - (withDerived d.values).length =
      ((iface.relations.drop (i + 1)).flatMap FuncDecl.attributes).length := by omega
  rw [hcore.2, ← Except.ok.inj hret, hblock', ← hrest]

/-- The point is as the learner created it, but for its label. -/
theorem NodeAt.quiescent {boolValue : Bool → ℤ} (h : NodeAt iface boolValue s d p) :
    (s.point p).listOfMarking = [] ∧ (s.point p).listOfHornConstraints = [] := by
  obtain ⟨i, d₁, -, hd₁, hpoint⟩ := h.data
  obtain ⟨data, -, hret⟩ := bind_ok.mp hd₁
  rw [← Except.ok.inj hret] at hpoint
  exact ⟨congrArg Datapoint.listOfMarking hpoint, congrArg Datapoint.listOfHornConstraints hpoint⟩

/-- Every point of the sample with its data point. -/
theorem Sampled.dataAt (harity : ∀ decl ∈ iface.relations, 0 < decl.arity)
    (h : Sampled NotFalse iface lboolValue s) (hp : p < s.nodes.length) :
    ∃ d i, Recordable NotFalse d ∧ Represented s d p ∧ DataAt iface s d p i := by
  obtain ⟨d, hd, hnode⟩ := h.node p hp
  obtain ⟨i, hi⟩ := hnode.dataAt harity hd
  exact ⟨d, i, hd, h.represented_iff.mpr hnode.key, hi⟩

theorem DataAt.length {i : ℕ} (hd : Recordable NotFalse d) (h : DataAt iface s d p i) :
    (s.point p).intData.length = iface.integerIdentifier := by
  rw [h.data, LearnerInterface.integerIdentifier_eq h.relation, List.length_append,
    List.length_append,
    List.length_replicate, List.length_replicate, List.length_map, length_withDerived hd.sorted]

theorem DataAt.category_eq {i : ℕ} (h : DataAt iface s d p i) : (s.point p).category 0 = i := by
  unfold Datapoint.category
  rw [h.category]
  rfl

/-- The input of the learner is as it expects it. -/
theorem Sampled.sample_ok (harity : ∀ decl ∈ iface.relations, 0 < decl.arity)
    (h : Sampled NotFalse iface lboolValue s)
    (hhcs : Boogie.indexes2hornConstraints s.datapoints.length s.hornIndexes = .ok hcs) :
    (s.sample iface hcs).Ok iface.integerIdentifier := by
  have hscope := indexes2hornConstraints_scope hhcs
  have hunsatisfied : ∀ hc ∈ hcs, hc.satisfiable = false := by
    intro hc hhc
    obtain ⟨x, -, hx⟩ := forall₂_mem_right (mapM_ok hhcs) hhc
    obtain ⟨premises, -, hx⟩ := bind_ok.mp hx
    split at hx
    · rw [← Except.ok.inj hx]
    · obtain ⟨consequent, -, hret⟩ := bind_ok.mp hx
      rw [← Except.ok.inj hret]
  refine ⟨⟨?_, by simp [sample, heapOf, label, Datapoint.label], hscope.1, hscope.2, hunsatisfied,
    by simp, by simp, by simp, fun x hx => ?_⟩, fun x hx => ?_, fun x hx => ?_⟩
  · intro hmem
    obtain ⟨p, -, hp⟩ := h.mem_datapoints.mp hmem
    cases hp
  · cases x with
    | falseDatapoint => exact absurd rfl hx
    | point p =>
      by_cases hp : p < s.nodes.length
      · obtain ⟨d, -, hnode⟩ := h.node p hp
        rw [h.mem_point hp]
        exact hnode.quiescent
      · have hout : (s.sample iface hcs).mem (.point p) = {} := by
          refine List.getD_eq_default _ _ ?_
          rw [h.length_datapoints]
          omega
        rw [hout]
        exact ⟨rfl, rfl⟩
  · obtain ⟨p, hp, rfl⟩ := h.mem_datapoints.mp hx
    obtain ⟨d, i, hd, -, hdata⟩ := h.dataAt harity hp
    rw [h.mem_point hp, hdata.category, hdata.length hd]
    exact ⟨rfl, rfl⟩
  · obtain ⟨p, hp, rfl⟩ := h.mem_datapoints.mp hx
    obtain ⟨d, i, hd, -, hdata⟩ := h.dataAt harity hp
    rw [h.mem_point hp, hdata.category_eq]
    exact (List.getElem?_eq_some_iff.mp hdata.relation).1

/-! ## Labellings of the points -/

/-- The constraints for the pairs of indices. -/
theorem hornConstraint_ok {size i : ℕ} {pair : Finset ℕ × Finset ℕ} {hc : HornConstraint}
    (hrun : Boogie.hornConstraint size i pair = .ok hc) :
    (∀ x, x ∈ hc.premises ↔ ∃ j ∈ pair.1, x = .point j) ∧
      ∀ c, hc.conclusion = some c → ∃ j ∈ pair.2, c = .point j := by
  obtain ⟨premises, hpremises, hrun⟩ := bind_ok.mp hrun
  have hptrs : premises = pair.1.sort.map Ptr.point := by
    rw [← List.forall₂_eq_eq_eq, List.forall₂_map_right_iff]
    exact List.Forall₂.flip ((mapM_ok hpremises).imp fun j x hjx => (Boogie.pointer_eq_ok.mp hjx).2)
  have hmem : ∀ x, x ∈ premises ↔ ∃ j ∈ pair.1, x = .point j := by
    intro x
    rw [hptrs]
    simp only [List.mem_map, Finset.mem_sort, eq_comm]
  split at hrun
  · rw [← Except.ok.inj hrun]
    exact ⟨hmem, fun c hc => by cases hc⟩
  · rename_i index hhead
    obtain ⟨c, hc, hrun⟩ := bind_ok.mp hrun
    rw [← Except.ok.inj hrun]
    refine ⟨hmem, fun c' hc' => ?_⟩
    rw [← Option.some.inj hc', (Boogie.pointer_eq_ok.mp hc).2]
    exact ⟨index, (Finset.mem_sort _).mp (List.mem_of_head? hhead), rfl⟩

/-- A labelling that is consistent for the learner satisfies the sample. -/
theorem Sampled.models {V : Value → Prop} {boolValue : Bool → ℤ}
    (h : Sampled V iface boolValue s)
    (hhcs : Boogie.indexes2hornConstraints s.datapoints.length s.hornIndexes = .ok hcs)
    {ν : Ptr → Bool}
    (hν : Consistent (s.sample iface hcs).mem (s.sample iface hcs).datapoints hcs [] [] ν) :
    s.Models fun p => ν (.point p) = true := by
  refine ⟨fun p b hb => ?_, fun pair hpair hall => ?_⟩
  · have hp : p < s.nodes.length := by
      by_contra hge
      rw [label_of_ge (Nat.not_lt.mp hge)] at hb
      cases hb
    have hlabel : label (s.sample iface hcs).mem (.point p) = some b := by
      unfold label
      rwa [h.mem_point hp]
    rw [hν.1 _ (h.mem_datapoints.mpr ⟨p, hp, rfl⟩) b hlabel]
  · obtain ⟨k, hk⟩ : ∃ k, (pair, k) ∈ s.hornIndexes.zipIdx 1 := by
      obtain ⟨j, hj, rfl⟩ := List.getElem_of_mem hpair
      exact ⟨1 + j, List.mk_add_mem_zipIdx_iff_getElem?.mpr (List.getElem?_eq_getElem hj)⟩
    obtain ⟨hc, hhc, hrun⟩ := forall₂_mem_right (List.Forall₂.flip (mapM_ok hhcs)) hk
    obtain ⟨hprem, hconc⟩ := hornConstraint_ok hrun
    obtain ⟨c, hc', hνc⟩ := hν.2.2.2 hc hhc fun x hx => by
      obtain ⟨j, hj, rfl⟩ := (hprem x).mp hx
      exact hall j hj
    obtain ⟨j, hj, rfl⟩ := hconc c hc'
    exact ⟨j, hj, hνc⟩

/-! ## The values of the attributes -/

theorem int_eq {d₁ : Datapoint} {k : ℕ} : d₁.int k = (d₁.intData[k]?).getD 0 :=
  List.getD_eq_getElem?_getD

/-- The attributes of other relations are zero. -/
theorem DataAt.int_outside {i k : ℕ} (hd : Recordable NotFalse d) (h : DataAt iface s d p i)
    (harity : 0 < d.predicate.arity) (hk : ¬ iface.InInterval i k) : (s.point p).int k = 0 := by
  have hlen := length_withDerived hd.sorted
  rw [LearnerInterface.inInterval_iff h.relation harity] at hk
  by_cases hlt : k < (s.point p).intData.length
  · rw [h.data, List.length_append, List.length_append, List.length_replicate,
      List.length_replicate] at hlt
    rw [int_eq, h.data, getElem?_outside hlt (by rw [List.length_map, hlen]; exact hk)]
    rfl
  · rw [int_eq, List.getElem?_eq_none (by omega)]
    rfl

/-- No argument is false. -/
theorem DataAt.int_bool {i k : ℕ} (hd : Recordable NotFalse d) (h : DataAt iface s d p i)
    (harity : 0 < d.predicate.arity) (hk : iface.InInterval i k)
    (hbool : isBoolAttribute iface.attributes k = true) : (s.point p).int k = 1 := by
  have hown := attributes_evaluate (d.predicate.constants_evaluate hd.sorted)
  have hlen := hown.length_eq
  obtain ⟨hle, hlt⟩ := (LearnerInterface.inInterval_iff h.relation harity k).mp hk
  have hlt' : k - iface.baseValue i < d.predicate.attributes.length := by omega
  have hexpr : iface.attributes[k]? = some d.predicate.attributes[k - iface.baseValue i] := by
    rw [LearnerInterface.attributes_eq h.relation, getElem?_block _ _ _ hle hlt]
    exact List.getElem?_eq_getElem hlt'
  have hvalue : (s.point p).int k = ((withDerived d.values)[k - iface.baseValue i]).data
      lboolValue := by
    rw [int_eq, h.data, getElem?_block _ _ _ (by rwa [List.length_replicate])
      (by rw [List.length_replicate, List.length_map]; omega), List.length_replicate,
      List.getElem?_map, List.getElem?_eq_getElem (by omega)]
    rfl
  have hmem : (withDerived d.values)[k - iface.baseValue i] ∈ withDerived d.values :=
    List.getElem_mem _
  have heval : Evaluates (d.predicate.env d.values) d.predicate.attributes[k - iface.baseValue i]
      (withDerived d.values)[k - iface.baseValue i] := hown.get hlt' (by omega)
  rw [isBoolAttribute, hexpr] at hbool
  dsimp only at hbool
  rw [hvalue]
  cases hv : (withDerived d.values)[k - iface.baseValue i] with
  | int n =>
    rw [hv] at heval
    rw [heval.1] at hbool
    cases hbool
  | bool b =>
    rw [hv, mem_withDerived_bool] at hmem
    cases b with
    | true => rfl
    | false => exact absurd rfl (hd.values _ hmem)

/-! ## The trees of the learner -/

/-- The test is on an attribute of the relation, and if that is Boolean, then the threshold
    is at most 1. -/
def OwnTest (iface : LearnerInterface) (i attr : ℕ) (threshold : ℤ) : Prop :=
  iface.InInterval i attr ∧ (isBoolAttribute iface.attributes attr = true → threshold ≤ 1)

/-- The root has a child for every relation, which tests the attributes of the relation
    unless it is null. -/
def Readable (iface : LearnerInterface) (tree : Tree) : Prop :=
  ∃ children, tree = .categorical 0 iface.relations.length children ∧
    ∀ i < iface.relations.length, (children i).isNull = true ∨
      (children i).isIntTree = true ∧ (children i).Thresholds (OwnTest iface i)

theorem Sampled.category_inSample (harity : ∀ decl ∈ iface.relations, 0 < decl.arity)
    (h : Sampled NotFalse iface lboolValue s) {d₁ : Datapoint}
    (hd₁ : InSample (s.sample iface hcs).datapoints (s.sample iface hcs).mem d₁) :
    ∃ d p i, Recordable NotFalse d ∧ DataAt iface s d p i ∧ d₁.category 0 = i ∧
      ∀ k, d₁.int k = (s.point p).int k := by
  obtain ⟨x, hx, hcore⟩ := hd₁
  obtain ⟨p, hp, rfl⟩ := h.mem_datapoints.mp hx
  rw [h.mem_point hp] at hcore
  obtain ⟨d, i, hd, -, hdata⟩ := h.dataAt harity hp
  have hcat : d₁.categoricalData = (s.point p).categoricalData := by
    have : (core d₁).categoricalData = (core (s.point p)).categoricalData := by rw [hcore]
    exact this
  have hint : d₁.intData = (s.point p).intData := by
    have : (core d₁).intData = (core (s.point p)).intData := by rw [hcore]
    exact this
  refine ⟨d, p, i, hd, hdata, ?_, fun k => ?_⟩
  · rw [← hdata.category_eq, Datapoint.category, Datapoint.category, hcat]
  · rw [Datapoint.int, Datapoint.int, hint]

/-- Cuts that separate points of a relation test its attributes. -/
theorem Sampled.ownTest (harity : ∀ decl ∈ iface.relations, 0 < decl.arity)
    (h : Sampled NotFalse iface lboolValue s) {t : Tree} {i : ℕ} (ht : t.Cuts fun d₁ =>
      InSample (s.sample iface hcs).datapoints (s.sample iface hcs).mem d₁ ∧ d₁.category 0 = i) :
    t.Thresholds (OwnTest iface i) := by
  refine ht.thresholds fun attr threshold d₁ d₂ hd₁ hd₂ hle hlt => ?_
  obtain ⟨d, p, j, hd, hdata, hj, hint⟩ := h.category_inSample harity hd₁.1
  obtain ⟨d', p', j', hd', hdata', hj', hint'⟩ := h.category_inSample harity hd₂.1
  obtain rfl : j = i := hj.symm.trans hd₁.2
  obtain rfl : j' = j := hj'.symm.trans hd₂.2
  have hpos := harity _ (List.mem_of_getElem? hdata.relation)
  have hpos' := harity _ (List.mem_of_getElem? hdata'.relation)
  have hown : iface.InInterval j' attr := by
    by_contra hno
    rw [hint, hdata.int_outside hd hpos hno] at hle
    rw [hint', hdata'.int_outside hd' hpos' hno] at hlt
    omega
  refine ⟨hown, fun hbool => ?_⟩
  rw [hint', hdata'.int_bool hd' hpos' hown hbool] at hlt
  omega

theorem Sampled.pointers_ne_nil {V : Value → Prop} {boolValue : Bool → ℤ}
    (h : Sampled V iface boolValue s) (hcs : List HornConstraint) (hne : s.nodes ≠ []) :
    (s.sample iface hcs).datapoints ≠ [] := by
  have hpos := List.length_pos_iff.mpr hne
  exact List.ne_nil_of_mem (h.mem_datapoints.mpr ⟨0, hpos, rfl⟩)

theorem Sampled.pointers_eq_nil {V : Value → Prop} {boolValue : Bool → ℤ}
    (h : Sampled V iface boolValue s) (hcs : List HornConstraint) (hnil : s.nodes = []) :
    (s.sample iface hcs).datapoints = [] := by
  refine List.eq_nil_iff_forall_not_mem.mpr fun x hx => ?_
  obtain ⟨p, hp, -⟩ := h.mem_datapoints.mp hx
  rw [hnil] at hp
  exact absurd hp (Nat.not_lt_zero p)

/-- A tree of an attempt. -/
theorem Sampled.attempt_readable (harity : ∀ decl ∈ iface.relations, 0 < decl.arity)
    (h : Sampled NotFalse iface lboolValue s) (hne : s.nodes ≠ [])
    (hhcs : Boogie.indexes2hornConstraints s.datapoints.length s.hornIndexes = .ok hcs)
    {env : Environment} {steps : ℕ} {threshold : Option ℤ} {tree : Tree}
    (hrun : attempt F env (s.sample iface hcs) steps threshold = .ok tree) :
    Readable iface tree := by
  have hok := h.sample_ok harity hhcs
  obtain ⟨bound, hbound, hscope⟩ := hok.boundConstraints threshold
  obtain ⟨bound', hbound', hrun⟩ := bind_ok.mp hrun
  obtain rfl : bound' = bound := Except.ok.inj (hbound'.symm.trans hbound)
  obtain ⟨s₁, hinit, hrun⟩ := bind_ok.mp hrun
  obtain ⟨⟨tree', s'⟩, hlearn, hrun⟩ := bind_ok.mp hrun
  obtain ⟨b, -, hrun⟩ := bind_ok.mp hrun
  obtain ⟨_, -, hret⟩ := bind_ok.mp hrun
  obtain rfl : tree' = tree := Except.ok.inj hret
  have hvalid := hok.validInput hscope
  have hfresh : ValidInput ((s.sample iface hcs).fresh : LearnerState F).solver.mem
      ((s.sample iface hcs).fresh : LearnerState F).datapointPtrs
      ((s.sample iface hcs).settings bound' threshold).hornConstraints [] [] := hvalid
  obtain ⟨children, htree, hchildren⟩ := learn_shaped hfresh rfl rfl (h.pointers_ne_nil hcs hne)
    hok.points.arity hinit hlearn
  refine ⟨children, htree, fun i _ => ?_⟩
  cases hnull : (children i).isNull with
  | true => exact .inl rfl
  | false =>
    have hcuts : (children i).Cuts fun d₁ => InSample (s.sample iface hcs).datapoints
        (s.sample iface hcs).mem d₁ ∧ d₁.category 0 = i := (hchildren i).1
    exact .inr ⟨(hchildren i).2 hnull, h.ownTest harity hcuts⟩

theorem LearnerInterface.intervals_getD {i : ℕ} (hi : i < iface.relations.length) :
    iface.intervals.getD i (0, 0) = (iface.baseValue i, iface.baseValue (i + 1)) := by
  have hlt : i < iface.intervals.length := by simpa [LearnerInterface.intervals] using hi
  rw [List.getD_eq_getElem _ _ hlt]
  simp [LearnerInterface.intervals]

/-- The thresholds of the derived predicates. -/
theorem mem_attributePredicates {q : Horndini.DerivedPredicate} {attr : ℕ}
    (h : q ∈ Horndini.attributePredicates 1 attr) : q.index = attr ∧ q.threshold ≤ 1 := by
  obtain ⟨j, hj, hq⟩ := List.mem_flatMap.mp h
  obtain ⟨n, hn, rfl⟩ : ∃ n : ℕ, n < 3 ∧ j = n := by
    rw [show (2 * (1 : ℤ) + 1).toNat = 3 from rfl] at hj
    simpa using hj
  simp only [List.mem_cons, List.not_mem_nil, or_false] at hq
  rcases hq with rfl | rfl | rfl <;> exact ⟨rfl, by dsimp only; omega⟩

/-- A conjunction of derived predicates of a relation. -/
theorem conjunctions_readable {X : List (List ℕ)} (hlen : X.length = iface.relations.length)
    (hsub : Horndini.Sub X (Horndini.derivedIntervals 1 iface.intervals 0)) :
    Readable iface (Horndini.conjunctions2tree iface.relations.length
      (Horndini.generateDerivedPredicates iface.intervals 1) X) := by
  refine ⟨_, rfl, fun i hi => .inr ?_⟩
  have hi' : i < X.length := by omega
  rw [List.getElem?_eq_getElem hi']
  refine ⟨Horndini.conjunction2tree_isIntTree _ _, ?_⟩
  rw [Horndini.conjunction2tree_thresholds]
  intro c hc
  -- the predicate is one of the interval
  have hmem : c ∈ (Horndini.derivedIntervals 1 iface.intervals 0).getD i [] := by
    refine (hsub.getD i).subset ?_
    rwa [List.getD_eq_getElem _ _ hi']
  have hint : i < iface.intervals.length := by simpa [LearnerInterface.intervals] using hi
  have hpred : Horndini.predicateAt (Horndini.generateDerivedPredicates iface.intervals 1) c ∈
      Horndini.intervalPredicates 1 (iface.intervals.getD i (0, 0)) := by
    have hmap := Horndini.derivedIntervals_map 1 iface.intervals [] hint
    rw [List.nil_append] at hmap
    rw [← hmap]
    exact List.mem_map_of_mem hmem
  obtain ⟨⟨hle, hlt⟩, hattr⟩ := Horndini.mem_intervalPredicates_iff.mp hpred
  rw [LearnerInterface.intervals_getD hi] at hle hlt
  dsimp only at hle hlt
  have hown : iface.InInterval i
      (Horndini.predicateAt (Horndini.generateDerivedPredicates iface.intervals 1) c).index := by
    refine ⟨hle, ?_⟩
    show _ ≤ iface.baseValue (i + 1) - 1
    omega
  have hthr := (mem_attributePredicates hattr).2
  exact ⟨fun _ => ⟨hown, fun _ => hthr⟩, fun _ => ⟨hown, fun _ => by omega⟩⟩

/-- A tree of the pre-phase. -/
theorem Sampled.prephase_readable (harity : ∀ decl ∈ iface.relations, 0 < decl.arity)
    (h : Sampled NotFalse iface lboolValue s)
    (hhcs : Boogie.indexes2hornConstraints s.datapoints.length s.hornIndexes = .ok hcs)
    {tree : Tree} (hrun : prephase (s.invocation iface call hcs) = .ok (some tree)) :
    Readable iface tree ∧ (s.sample iface hcs).Fits tree := by
  have hok := h.sample_ok harity hhcs
  have hlen : iface.intervals.length = iface.relations.length := by
    simp [LearnerInterface.intervals]
  have hcat : ∀ x ∈ (s.sample iface hcs).datapoints,
      ((s.sample iface hcs).mem x).category 0 < iface.intervals.length := by
    intro x hx
    rw [hlen]
    exact hok.points.category x hx
  have htry : tryHorndini (s.invocation iface call hcs) = .ok (some tree) := by
    unfold prephase at hrun
    split at hrun
    swap
    · cases hrun
    split at hrun
    · rename_i result hresult
      rw [hresult, Except.ok.inj hrun]
    · cases hrun
    · cases hrun
  obtain ⟨_, -, htry⟩ := bind_ok.mp htry
  obtain ⟨tree', hpre, htry⟩ := bind_ok.mp htry
  obtain ⟨b, hb, hret⟩ := bind_ok.mp htry
  have hsome : (if b = true then some tree' else none) = some tree := Except.ok.inj hret
  obtain rfl : b = true := by
    by_contra hfalse
    rw [if_neg hfalse] at hsome
    cases hsome
  obtain rfl : tree' = tree := Option.some.inj hsome
  obtain ⟨X, hX, htree, hsub, -⟩ := Horndini.horndiniPrephase_ok hcat hok.valid.premises
    hok.valid.conclusion hpre
  subst htree
  rw [hlen] at hX hb ⊢
  refine ⟨conjunctions_readable hX hsub, ?_⟩
  obtain ⟨b', hb', hfits⟩ := isConsistent_ok _ hok.valid rfl fun x hx =>
    Horndini.conjunctions2tree_output hX.le (by rw [hX]; exact hlen ▸ hcat x hx)
  obtain rfl : true = b' := Except.ok.inj (hb.symm.trans hb')
  exact hfits rfl

/-- A tree of the bound loop is one of its attempts. -/
theorem boundLoop_attempt {env : ℕ → Environment} {sample : Learner.Sample} {steps fuel : ℕ}
    {b : Bound}
    {tree : Tree} (hrun : boundLoop F env sample steps fuel b = .ok tree) :
    ∃ n threshold, attempt F (env n) sample steps threshold = .ok tree := by
  rw [boundLoop_eq] at hrun
  cases hsearch : boundSearch F env sample steps fuel b with
  | error e =>
    rw [hsearch] at hrun
    cases hrun
  | ok r =>
    rw [hsearch] at hrun
    obtain ⟨i, -, -, hok, -⟩ := boundSearch_ok hsearch
    rw [Except.ok.inj hrun] at hok
    exact ⟨_, _, hok⟩

/-- Without data points the tree is a leaf. -/
theorem attempt_empty {env : Environment} {sample : Learner.Sample} {steps k : ℕ}
    {threshold : Option ℤ}
    (h : sample.Ok k) (hempty : sample.datapoints = []) (hsat : sample.Satisfiable) :
    attempt F env sample steps threshold = .ok (.leaf true) := by
  obtain ⟨bound, hbound, hscope⟩ := h.boundConstraints threshold
  have hnone : bound = [] := by
    unfold Learner.Sample.boundConstraints at hbound
    rw [hempty] at hbound
    cases threshold with
    | none => exact (Except.ok.inj hbound).symm
    | some t => exact (Except.ok.inj hbound).symm
  subst hnone
  rcases initialRun_spec env (sample.settings [] threshold) (sample.fresh : LearnerState F)
    (h.validInput hscope) with ⟨-, st, hinit, hs⟩ | ⟨hunsat, -⟩
  swap
  · refine absurd ?_ hunsat
    obtain ⟨ν, hν⟩ := hsat
    refine ⟨ν, ?_⟩
    show Consistent _ _ (sample.hornConstraints ++ []) _ _ ν
    rw [List.append_nil]
    exact hν
  have hlearn : learn env (sample.settings [] threshold) steps
      ({ sample.fresh with solver := st } : LearnerState F) =
        .ok (.leaf true, { sample.fresh with solver := st }) := by
    unfold learn
    rw [if_pos (by simp [Learner.Sample.fresh, hempty])]
  obtain ⟨ν, hl⟩ := learn_result env _ hs rfl hlearn
  unfold attempt
  simp only [hbound, bind, Except.bind, hinit, hlearn, hl.isConsistent, assert_true]
  rfl

/-- The trees of the `try` block. -/
structure Delivered (iface : LearnerInterface) (s : Store) (hcs : List HornConstraint)
    (tree : Tree) :
    Prop where
  constraints : Boogie.indexes2hornConstraints s.datapoints.length s.hornIndexes = .ok hcs
  readable : Readable iface tree ∨ s.nodes = [] ∧ ∃ b, tree = .leaf b
  fits : (s.sample iface hcs).Fits tree

theorem Sampled.tryBlock_delivered (harity : ∀ decl ∈ iface.relations, 0 < decl.arity)
    (h : Sampled NotFalse iface lboolValue s)
    (hhcs : Boogie.indexes2hornConstraints s.datapoints.length s.hornIndexes = .ok hcs)
    {tree : Tree}
    (hrun : tryBlock F (s.invocation iface call hcs) = .ok tree) : Delivered iface s hcs tree := by
  obtain ⟨_, -, hrun⟩ := bind_ok.mp hrun
  obtain ⟨result, hpre, hrun⟩ := bind_ok.mp hrun
  cases result with
  | some tree' =>
    obtain rfl : tree' = tree := Except.ok.inj hrun
    obtain ⟨hread, hfits⟩ := h.prephase_readable harity hhcs hpre
    exact ⟨hhcs, .inl hread, hfits⟩
  | none =>
    have hok := h.sample_ok harity hhcs
    refine ⟨hhcs, ?_, boundLoop_fits hok hrun⟩
    obtain ⟨n, threshold, hattempt⟩ := boundLoop_attempt hrun
    by_cases hne : s.nodes = []
    · have hleaf := hattempt.symm.trans
        (attempt_empty hok (h.pointers_eq_nil hcs hne) (attempt_fits hok hattempt).satisfiable)
      exact .inr ⟨hne, true, Except.ok.inj hleaf⟩
    · exact .inl (h.attempt_readable harity hne hhcs hattempt)

/-- The trees that `learn_decision_tree` returns. -/
theorem Sampled.learnDecisionTree_delivered (harity : ∀ decl ∈ iface.relations, 0 < decl.arity)
    (h : Sampled NotFalse iface lboolValue s) {tree : Tree}
    (hrun : learnDecisionTree F iface call s = .ok (.returned tree)) :
    ∃ hcs, Delivered iface s hcs tree := by
  have hblock := handleExceptions_returned.mp hrun
  obtain ⟨_, -, hblock⟩ := bind_ok.mp hblock
  obtain ⟨hcs, hhcs, hblock⟩ := bind_ok.mp hblock
  exact ⟨hcs, h.tryBlock_delivered harity hhcs hblock⟩

/-! ## The conjectures -/

/-- The conjecture for the predicate has the variables of the predicate, mentions no others,
    and is `b` for the values. -/
def Explains (map : ConjectureMap) (d : TeacherDatapoint) (b : Bool) : Prop :=
  ∃ e, map d.predicate = some ⟨e, d.predicate.constants⟩ ∧
    (∀ c ∈ e.constants, c ∈ d.predicate.constants) ∧ e.evalBool (d.predicate.env d.values) = b

/-- On the points of the relation the expression reads own tests as the tree does. -/
theorem DataAt.readTest_eq {i attr : ℕ} {threshold : ℤ} (hd : Recordable NotFalse d)
    (h : DataAt iface s d p i) (harity : ∀ decl ∈ iface.relations, 0 < decl.arity)
    (hown : OwnTest iface i attr threshold) : readTest iface.attributes (s.point p) attr threshold =
      some (decide ((s.point p).int attr ≤ threshold)) := by
  have hlt : attr < iface.attributes.length := (LearnerInterface.partitioned harity).1 i
    (List.getElem?_eq_some_iff.mp h.relation).1 attr hown.1
  have hisBool : isBoolAttribute iface.attributes attr = iface.attributes[attr].isBool := by
    rw [isBoolAttribute, List.getElem?_eq_getElem hlt]
  rw [readTest, List.getElem?_eq_getElem hlt]
  dsimp only
  split_ifs with hbool h1
  · have hle := hown.2 (hisBool.trans hbool)
    rw [h1]
    congr 1
    rw [decide_eq_decide]
    omega
  · have hpos := harity _ (List.mem_of_getElem? h.relation)
    exact absurd (h.int_bool hd hpos hown.1 (hisBool.trans hbool)) h1
  · rfl

/-- A readable tree is translated to conjectures that explain its outputs. -/
theorem Readable.translated (hnames : (iface.relations.map FuncDecl.name).Nodup)
    (harity : ∀ decl ∈ iface.relations, 0 < decl.arity) {tree : Tree} (h : Readable iface tree)
    (random : FuncDecl → Bool) : ∃ map, getUnorderedMap iface random tree = .ok map ∧
      ∀ d p i b, Recordable NotFalse d → DataAt iface s d p i → tree.output (s.point p) = .ok b →
        Explains map d b := by
  obtain ⟨children, rfl, hchildren⟩ := h
  have hbound : ∀ {i : ℕ}, i < iface.relations.length → ∀ {t : Tree},
    t.Thresholds (OwnTest iface i) →
      t.Thresholds fun attr _ => attr < iface.attributes.length := fun hi _ ht =>
    ht.imp fun attr _ hown => (LearnerInterface.partitioned harity).1 _ hi attr hown.1
  have htranslatable : ∀ c < iface.relations.length,
      Translatable iface.attributes (children c) := by
    intro c hc
    refine (hchildren c hc).imp_right fun ⟨hint, hthr⟩ => ⟨hint, ?_⟩
    obtain ⟨e, he, -⟩ := subtreeExpression_constants iface.attributes hint (hbound hc hthr)
    exact ⟨e, he⟩
  obtain ⟨map, hrun, hmap⟩ := getUnorderedMap_categorical hnames.of_map random 0 le_rfl
    htranslatable
  refine ⟨map, hrun, fun d p i b hd hdata hout => ?_⟩
  obtain ⟨hi, -⟩ := List.getElem?_eq_some_iff.mp hdata.relation
  have hpos := harity _ (List.mem_of_getElem? hdata.relation)
  rw [Tree.output, hdata.category_eq, if_pos hi] at hout
  have hnull : (children i).isNull = false := by
    by_contra hyes
    rw [if_pos (by simpa using hyes)] at hout
    cases hout
  rw [hnull, if_neg Bool.false_ne_true] at hout
  obtain ⟨hint, hthr⟩ := (hchildren i hi).resolve_left (by rw [hnull]; exact Bool.false_ne_true)
  obtain ⟨e, hfold, he⟩ := hmap i d.predicate hi hdata.relation
  have hsub := carried_of_not_null (by simp [hi]) hnull (htranslatable i hi) hfold
  refine ⟨e, he, ?_, ?_⟩
  · obtain ⟨e', he', hconst⟩ := subtreeExpression_constants iface.attributes hint (hbound hi hthr)
    obtain rfl : e' = e := Except.ok.inj (he'.symm.trans hsub)
    intro c hc
    obtain ⟨attr, hattr, a, ha, hca⟩ := (hconst c).mp hc
    have hown := usedAttributes_of_thresholds (hthr.imp fun _ _ hown => hown.1) attr hattr
    exact (FuncDecl.attributes_constants (mem_attributes_of_inInterval hdata.relation hpos hown
      ha)).2 c hca
  · obtain ⟨d₁, hd₁, hsame⟩ := hdata.learner
    obtain ⟨-, hagree⟩ := attributes_agree iface (show lboolValue true = 1 from rfl) (by decide)
      hnames hdata.relation hpos hd.sorted hd₁
    rw [hsame] at hagree
    obtain ⟨e', he', heval⟩ := evalBool_subtreeExpression hagree hint (hbound hi hthr)
    obtain rfl : e' = e := Except.ok.inj (he'.symm.trans hsub)
    rw [Tree.output_eq_walk hint] at hout
    rw [heval, ← Except.ok.inj hout]
    exact Tree.walk_congr hthr fun attr threshold hown => hdata.readTest_eq hd harity hown

theorem Sampled.dataAt_of_represented (harity : ∀ decl ∈ iface.relations, 0 < decl.arity)
    (h : Sampled NotFalse iface lboolValue s) (hd : Recordable NotFalse d)
    (hp : Represented s d p) : ∃ i, DataAt iface s d p i := by
  obtain ⟨d', i, hd', hp', hdata⟩ := h.dataAt harity (h.represented_lt hp)
  have hext : d'.extended = d.extended :=
    Option.some.inj ((h.represented_iff.mp hp').symm.trans (h.represented_iff.mp hp))
  rw [TeacherDatapoint.extended_inj (Sorted.basic hd'.sorted) (Sorted.basic hd.sorted)
    hext] at hdata
  exact ⟨i, hdata⟩

theorem Entry.represented {lhs rhs : List TeacherDatapoint} (h : Entry s lhs rhs) :
    ∀ d ∈ lhs ++ rhs, ∃ p, Represented s d p := by
  cases h with
  | positive d p hlhs hrhs hp _ =>
    subst hlhs hrhs
    simpa using ⟨p, hp⟩
  | negative d p hlhs hrhs hp _ =>
    subst hlhs hrhs
    simpa using ⟨p, hp⟩
  | horn ps cs hlhs hrhs _ =>
    intro d hd
    rcases List.mem_append.mp hd with hd | hd
    · obtain ⟨p, -, hp⟩ := forall₂_mem_right hlhs.flip hd
      exact ⟨p, hp⟩
    · obtain ⟨p, -, hp⟩ := forall₂_mem_right hrhs.flip hd
      exact ⟨p, hp⟩

end Store

/-- The conjectures as the verifier has them. -/
def ConjectureMap.toSmt (iface : LearnerInterface) (map : ConjectureMap) : Smt.ConjectureMap :=
    fun f =>
  (iface.relationOf f).bind fun decl => (map decl).map Conjecture.toSmt

variable {iface : LearnerInterface} {map : ConjectureMap} {T : Theory α} {d : TeacherDatapoint}
    {b : Bool}

theorem ConjectureMap.toSmt_some {f : Decl} {c : Smt.Conjecture} :
    map.toSmt iface f = some c ↔
      ∃ decl ∈ iface.relations, decl.toDecl = f ∧ ∃ c', map decl = some c' ∧ c'.toSmt = c := by
  unfold ConjectureMap.toSmt
  rw [Option.bind_eq_some_iff]
  constructor
  · rintro ⟨decl, hdecl, hc⟩
    obtain ⟨hmem, hf⟩ := LearnerInterface.relationOf_eq_some.mp hdecl
    exact ⟨decl, hmem, hf, Option.map_eq_some_iff.mp hc⟩
  · rintro ⟨decl, hmem, hf, hc⟩
    exact ⟨decl, LearnerInterface.relationOf_eq_some.mpr ⟨hmem, hf⟩, Option.map_eq_some_iff.mpr hc⟩

/-- The conjecture for a data point is over its own variables and has the truth value. -/
theorem Store.Explains.toSmt (hT : Arithmetic T) (h : Store.Explains map d b)
    (hsorted : map.WellSorted)
    (hmem : d.predicate ∈ iface.relations) (hd : d.Sorted) :
    (∀ c, map.toSmt iface d.predicate.toDecl = some c → c.WellFormed) ∧
      Smt.truthOn T (map.toSmt iface) d.toSmt = some b := by
  obtain ⟨e, he, hconst, rfl⟩ := h
  have hsome : map.toSmt iface d.predicate.toDecl =
      some (Conjecture.toSmt ⟨e, d.predicate.constants⟩) :=
    ConjectureMap.toSmt_some.mpr ⟨_, hmem, rfl, _, he, rfl⟩
  have hvalue := Conjecture.toSmt_value hT (hsorted _ _ he).1.sort hconst hd
  constructor
  · intro c hc
    rw [hsome] at hc
    rw [← Option.some.inj hc]
    exact Conjecture.toSmt_wellFormed hconst
  · unfold Smt.truthOn
    rw [show (d.toSmt : Smt.TeacherDatapoint α).predicate = d.predicate.toDecl from rfl, hsome,
      Option.map_some, show (d.toSmt : Smt.TeacherDatapoint α).values =
      d.values.map Value.toVal from rfl, hvalue]
    rfl

namespace Store

variable {s : Store} {call : Call} {F : Type} [Score F] {ces : List (Smt.HornCounterexample α)}

/-- The conjectures of `get_conjectures` satisfy every counterexample that was recorded, and
    those for its predicates are over their own variables. -/
theorem getConjectures_fits (hT : Arithmetic T) (hnames : (iface.relations.map FuncDecl.name).Nodup)
    (harity : ∀ decl ∈ iface.relations, 0 < decl.arity)
    (h : RecordedAll NotFalse iface lboolValue ces s)
    (hrun : getConjectures F iface call s = .ok map) :
    ∀ ce ∈ ces, Smt.Fits T (map.toSmt iface) ce := by
  -- the tree of the learner
  obtain ⟨tree, htree, hmap⟩ : ∃ tree, learnDecisionTree F iface call s = .ok (.returned tree) ∧
      getUnorderedMap iface call.random tree = .ok map := by
    unfold getConjectures at hrun
    split at hrun
    · rename_i tree htree
      exact ⟨tree, htree, hrun⟩
    · cases hrun
    · cases hrun
  obtain ⟨hcs, hdelivered⟩ := h.sampled.learnDecisionTree_delivered harity htree
  obtain ⟨ν, hout, hν⟩ := hdelivered.fits
  have hmodels := h.sampled.models hdelivered.constraints hν
  have hsorted := getUnorderedMap_wellSorted hmap
  -- what its conjectures say about the data points
  have hexplains : ∀ d, Recordable NotFalse d → ∀ p, Represented s d p →
    Explains map d (ν (.point p)) ∧
      d.predicate ∈ iface.relations := by
    intro d hd p hp
    have hlt := h.sampled.represented_lt hp
    obtain ⟨i, hdata⟩ := h.sampled.dataAt_of_represented harity hd hp
    refine ⟨?_, List.mem_of_getElem? hdata.relation⟩
    have houtput := hout (.point p) (h.sampled.mem_datapoints.mpr ⟨p, hlt, rfl⟩)
    rw [h.sampled.mem_point hlt] at houtput
    rcases hdelivered.readable with hread | ⟨hnil, -⟩
    · obtain ⟨map', hmap', hall⟩ := hread.translated hnames harity call.random
      obtain rfl : map = map' := Except.ok.inj (hmap.symm.trans hmap')
      exact hall d p i _ hd hdata houtput
    · rw [hnil] at hlt
      exact absurd hlt (Nat.not_lt_zero p)
  intro ce hce
  obtain ⟨lhs, rhs, hconv, hrec, hentry⟩ := h.entry ce hce
  refine ⟨fun d hd c hc => ?_, h.holds hmodels (fun d hd p hp => ?_) hce⟩
  · rw [← hconv.left, ← hconv.right, ← List.map_append] at hd
    obtain ⟨d', hd', rfl⟩ := List.mem_map.mp hd
    obtain ⟨p, hp⟩ := hentry.represented d' hd'
    obtain ⟨hexp, hmem⟩ := hexplains d' (hrec d' hd') p hp
    exact (hexp.toSmt hT hsorted hmem (hrec d' hd').sorted).1 c hc
  · obtain ⟨hexp, hmem⟩ := hexplains d hd p hp
    rw [(hexp.toSmt hT hsorted hmem hd.sorted).2, Option.some.injEq]

end Store

end HiceDt.Chc
