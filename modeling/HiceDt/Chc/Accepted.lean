import HiceDt.Chc.Conjectures

/-!
# Counterexamples that the learner accepts

`add_counterexample` and `get_conjectures` (`chc_verifier/include/learner_interface.h`,
lines 191–335) throw or leave their domain on some inputs. The results here say on which
counterexamples they return.

Results:

* `addLabel_returns`: a label is added if some labelling satisfies the sample and gives the
  data point this label.
* `recordAll_returns`: counterexamples that hold together are recorded.
* `getConjectures_returns`: the learner returns conjectures for a satisfiable sample.
-/

namespace HiceDt.Chc

open HiceDt Loop Fol Machine Solver Learner Main

variable {α : Type}

namespace Store

/-! ## Recording -/

/-- The values and the derived values fit into an `int`. -/
def Small (d : TeacherDatapoint) : Prop := ∀ n, Value.int n ∈ withDerived d.values → IsInt32 n

/-- The data point is recordable, and the interface has its relation. -/
structure Admissible (iface : LearnerInterface) (d : TeacherDatapoint) : Prop where
  recordable : Recordable NotFalse d
  relation : d.predicate ∈ iface.relations
  small : Small d

variable {iface : LearnerInterface} {args : ℕ → TeacherDatapoint} {s s' : Store} {obj p : ℕ}
  {d : TeacherDatapoint} {ν : TeacherDatapoint → Prop}

/-- The data of the learner for the data point. -/
theorem Admissible.learnerDatapoint (harity : ∀ decl ∈ iface.relations, 0 < decl.arity)
    (h : Admissible iface d) : ∃ i d₁, iface.relations.idxOf? d.predicate = some i ∧
      learnerDatapoint iface lboolValue i d.values = .ok d₁ := by
  obtain ⟨i, hi⟩ : ∃ i, iface.relations.idxOf? d.predicate = some i :=
    Option.isSome_iff_exists.mp (List.isSome_idxOf?.mpr h.relation)
  obtain ⟨data, hdata⟩ : ∃ data, getIntData lboolValue (iface.baseValue i) iface.integerIdentifier
      d.values = .ok data :=
    ⟨_, getIntData_returns (idxOf?_some hi) (harity _ h.relation) h.recordable.sorted h.small⟩
  refine ⟨i, { intData := data, categoricalData := [i] }, hi, ?_⟩
  rw [Chc.learnerDatapoint, hdata]
  rfl

theorem inserted_point (key : TeacherDatapoint) (d₁ : Datapoint) (hp : p < s.nodes.length) :
    (s.inserted obj key d₁).point p = s.point p := by
  unfold inserted emplace
  split
  · rfl
  · exact point_append rfl hp

theorem insert_returns (harity : ∀ decl ∈ iface.relations, 0 < decl.arity) (h : Inv args s)
    (hobj : Admissible iface (args obj)) (hnone : s.find (s.objects obj) = none) :
    ∃ s', s.insert iface lboolValue obj = .ok s' := by
  obtain ⟨i, d₁, hi, hd₁⟩ := hobj.learnerDatapoint harity
  obtain ⟨p, hrun⟩ := insert_eq h hnone hi hd₁
  rw [hrun]
  have hptrs : (s.inserted obj (args obj).extended d₁).datapointPtrs = List.range s.nodes.length :=
    (emplace_ptrs _ _ _).1.trans h.ptrs
  have hindex : (s.inserted obj (args obj).extended d₁).indexOfDatapointPtrs = s.nodes.length :=
    indexOfDatapointPtrs_eq hptrs fun q hq => by
      rw [inserted_point _ _ hq]
      exact h.identifier q hq
  split_ifs with hid
  · refine ⟨_, if_pos ?_⟩
    rw [hid, hindex, hptrs, List.length_range]
  · exact ⟨_, rfl⟩

/-- A data point gets a node. -/
theorem getUniqueLearnerDatapoint_returns (harity : ∀ decl ∈ iface.relations, 0 < decl.arity)
    (h : Inv args s) (hargs : ∀ o, (args o).Basic) (hobj : Admissible iface (args obj)) :
    ∃ p s', s.getUniqueLearnerDatapoint iface lboolValue obj = .ok (p, s') := by
  unfold getUniqueLearnerDatapoint insertIfAbsent
  cases hfind : s.find (s.objects obj) with
  | some p =>
    refine ⟨p, s, ?_⟩
    simp only [bind, Except.bind, hfind]
    rfl
  | none =>
    obtain ⟨s', hrun⟩ := insert_returns harity h hobj hfind
    obtain ⟨hobj', p, hlooked⟩ := insert_spec h hargs hfind hrun
    refine ⟨p, s', ?_⟩
    simp only [bind, Except.bind, hrun, hobj', hlooked.found]
    rfl

theorem getPoints_returns (harity : ∀ decl ∈ iface.relations, 0 < decl.arity) {objs : List ℕ} :
    ∀ {s : Store}, Inv args s → (∀ o, (args o).Basic) → (∀ o ∈ objs, Admissible iface (args o)) →
      ∃ ps s', getPoints iface lboolValue s objs = .ok (ps, s') := by
  induction objs with
  | nil => exact fun _ _ _ => ⟨_, _, rfl⟩
  | cons obj rest ih =>
    intro s h hargs hobjs
    obtain ⟨p, s₁, hget⟩ := getUniqueLearnerDatapoint_returns harity h hargs
      (hobjs obj List.mem_cons_self)
    obtain ⟨ps, s₂, hrest⟩ := ih (getUniqueLearnerDatapoint_spec h hargs hget).inv hargs
      fun o ho => hobjs o (List.mem_cons_of_mem _ ho)
    refine ⟨p :: ps, s₂, ?_⟩
    rw [getPoints]
    simp only [hget, hrest, bind, Except.bind]
    rfl

/-- A label is added if a labelling that satisfies the sample gives the data point this
    label. -/
theorem addLabel_returns (harity : ∀ decl ∈ iface.relations, 0 < decl.arity)
    (hs : Sampled NotFalse iface lboolValue s) (hμ : s.Models (labelling ν s))
    (hargs : ∀ o, (args o).Basic)
    (hobj : Admissible iface (args obj)) {b : Bool} (hν : ν (args obj) ↔ b = true) :
    ∃ s', addLabel iface lboolValue { s with objects := args } obj b = .ok s' := by
  have hinv := hs.inv args
  obtain ⟨p, s₁, hget⟩ := getUniqueLearnerDatapoint_returns harity hinv hargs hobj
  obtain ⟨-, hlabels⟩ := getUniqueLearnerDatapoint_extends hinv hget
  have hlooked := getUniqueLearnerDatapoint_spec hinv hargs hget
  have hlabel : (s₁.point p).label = (s.point p).label := hlabels p
  -- a label that is set is the one of the labelling
  have hagree : (s₁.point p).isClassified = true → (s₁.point p).classification = b := by
    intro hc
    have hset : (s.point p).label = some (s₁.point p).classification := by
      rw [← hlabel, Datapoint.label, if_pos hc]
    have hlt : p < s.nodes.length := by
      by_contra hge
      rw [label_of_ge (Nat.not_lt.mp hge)] at hset
      cases hset
    have hrep : Represented s (args obj) p := by
      rw [hs.represented_iff]
      have hkey := (find_eq_some hlooked.inv.nodup).mp hlooked.found
      obtain ⟨L, hL⟩ : s.keys <+: s₁.keys := hlooked.grows.keys
      rwa [← hL, List.getElem?_append_left (by rwa [length_keys])] at hkey
    have hiff := hμ.labels p _ hset
    rw [hs.labelling_iff hobj.recordable.sorted hrep, hν] at hiff
    cases b <;> cases hcl : (s₁.point p).classification <;> simp_all
  unfold addLabel
  simp only [hget, bind, Except.bind]
  split_ifs with hc hne
  · exact absurd (hagree hc) hne
  · exact ⟨s₁, rfl⟩
  · exact ⟨_, rfl⟩

theorem addHorn_returns (harity : ∀ decl ∈ iface.relations, 0 < decl.arity) (h : Inv args s)
    (hargs : ∀ o, (args o).Basic) (ce : HornCounterexample)
    (hobjs : ∀ o ∈ ce.lhs ++ ce.rhs, Admissible iface (args o)) :
    ∃ s', s.addHorn iface lboolValue ce = .ok s' := by
  obtain ⟨cs, s₁, hconc⟩ := getPoints_returns harity h hargs
    fun o ho => hobjs o (List.mem_append_right _ ho)
  obtain ⟨ps, s₂, hprem⟩ := getPoints_returns harity (getPoints_spec hargs h hconc).1 hargs
    fun o ho => hobjs o (List.mem_append_left _ ho)
  refine ⟨s₂.addHornConstraints ps cs.head?, ?_⟩
  unfold addHorn
  simp only [hconc, hprem, bind, Except.bind]
  rfl

/-- The counterexample has the form that `add_counterexample` expects. -/
structure Acceptable (iface : LearnerInterface) (lhs rhs : List TeacherDatapoint) : Prop where
  points : ∀ d ∈ lhs ++ rhs, Admissible iface d
  nonempty : lhs ++ rhs ≠ []
  conclusion : rhs.length ≤ 1

theorem objectsOf_mem {ds : List TeacherDatapoint} {o : ℕ} (ho : o < ds.length) :
    objectsOf ds o ∈ ds := by
  rw [objectsOf, List.getD_eq_getElem _ _ ho]
  exact List.getElem_mem ho

/-- A counterexample is recorded if a labelling satisfies it and the sample. -/
theorem addCounterexample_returns (harity : ∀ decl ∈ iface.relations, 0 < decl.arity)
    (hs : Sampled NotFalse iface lboolValue s) (hμ : s.Models (labelling ν s))
    {lhs rhs : List TeacherDatapoint} (h : Acceptable iface lhs rhs) (hν : HoldsFor ν lhs rhs) :
    ∃ s', addCounterexample iface lboolValue { s with objects := objectsOf (lhs ++ rhs) }
      ⟨List.range' 0 lhs.length, List.range' lhs.length rhs.length⟩ = .ok s' := by
  have hargs : ∀ o, (objectsOf (lhs ++ rhs) o).Basic := fun o =>
    Sorted.basic (objectsOf_recordable (fun d hd => (h.points d hd).recordable) o).sorted
  have hadmissible : ∀ o < (lhs ++ rhs).length, Admissible iface (objectsOf (lhs ++ rhs) o) :=
    fun o ho => h.points _ (objectsOf_mem ho)
  match lhs, rhs with
  | [], [] => exact absurd rfl h.nonempty
  | [], [d] =>
    obtain ⟨d', hd', hνd⟩ := hν (by simp)
    obtain rfl := List.mem_singleton.mp hd'
    exact addLabel_returns (b := true) harity hs hμ hargs (hadmissible 0 Nat.one_pos)
      (iff_of_true hνd rfl)
  | [d], [] =>
    refine addLabel_returns (b := false) harity hs hμ hargs (hadmissible 0 Nat.one_pos) ?_
    refine iff_of_false (fun hνd => ?_) Bool.false_ne_true
    obtain ⟨_, hd', -⟩ := hν fun d' hd' => (List.mem_singleton.mp hd').symm ▸ hνd
    cases hd'
  | [], _ :: _ :: _ => exact absurd h.conclusion (by simp)
  | [d], e :: rest =>
    have hrest : rest = [] := by simpa using h.conclusion
    subst hrest
    obtain ⟨s', hrun⟩ := addHorn_returns harity (hs.inv _) hargs ⟨[0], [1]⟩ fun o ho =>
      hadmissible o (by simp at ho ⊢; omega)
    exact ⟨s', hrun⟩
  | d :: d' :: rest, rhs =>
    obtain ⟨s', hrun⟩ := addHorn_returns harity (hs.inv _) hargs ⟨List.range' 0
      (d :: d' :: rest).length, List.range' (d :: d' :: rest).length rhs.length⟩ fun o ho => by
        refine hadmissible o ?_
        rw [List.mem_append, List.mem_range'_1, List.mem_range'_1] at ho
        rw [List.length_append]
        omega
    refine ⟨s', ?_⟩
    rw [← hrun]
    exact if_pos ⟨Nat.succ_pos _, by rw [List.length_range']; exact h.conclusion⟩

/-- The data points of all counterexamples are admissible. -/
def AllAcceptable (iface : LearnerInterface) (ces : List (Smt.HornCounterexample α)) : Prop :=
  ∀ ce ∈ ces, ∃ lhs rhs, Converts iface ce lhs rhs ∧ Acceptable iface lhs rhs

variable {ces : List (Smt.HornCounterexample α)}

theorem AllAcceptable.recordable (h : AllAcceptable iface ces) : AllRecordable NotFalse ces := by
  intro ce hce d hd
  obtain ⟨lhs, rhs, hconv, hacc⟩ := h ce hce
  rw [← hconv.left, ← hconv.right, ← List.map_append] at hd
  obtain ⟨d', hd', heq⟩ := List.mem_map.mp hd
  rw [← toSmt_inj heq]
  exact (hacc.points d' hd').recordable

/-- Counterexamples that hold together are recorded. -/
theorem recordAll_returns (harity : ∀ decl ∈ iface.relations, 0 < decl.arity)
    (h : AllAcceptable iface ces) {ν : Smt.TeacherDatapoint α → Prop}
    (hν : ∀ ce ∈ ces, ce.Holds ν) : ∃ s, recordAll iface lboolValue ces = .ok s := by
  obtain ⟨s, hrun, -⟩ := foldlM_returns (f := record iface lboolValue) (l := ces)
    (s := initial (objectsOf [])) (I := fun _ _ => True) (fun done ce rest t hl hdone _ => by
      have hsub : ∀ ce' ∈ done, ce' ∈ ces := fun ce' hce' => hl ▸ List.mem_append_left _ hce'
      have hce : ce ∈ ces := hl ▸ by simp
      have hall : AllAcceptable iface done := fun ce' hce' => h ce' (hsub ce' hce')
      have ht := recordAll_spec hall.recordable hdone
      obtain ⟨lhs, rhs, hconv, hacc⟩ := h ce hce
      obtain ⟨t', hadd⟩ := addCounterexample_returns harity ht.sampled
        (ht.models ν fun ce' hce' => hν ce' (hsub ce' hce')) hacc (hconv.holds_iff.mpr (hν ce hce))
      refine ⟨t', ?_, trivial⟩
      have hlhs := mapM_ofDatapoint.mpr
        ⟨fun d hd => hconv.relations d (List.mem_append_left _ hd), hconv.left⟩
      have hrhs := mapM_ofDatapoint.mpr
        ⟨fun d hd => hconv.relations d (List.mem_append_right _ hd), hconv.right⟩
      rw [record, hlhs, hrhs]
      exact hadd) trivial
  exact ⟨s, hrun⟩

/-! ## The answer of the learner -/

/-- The pair of index sets as the indices of a clause. -/
def clauseOf (pair : Finset ℕ × Finset ℕ) : List ℕ × Option ℕ := (pair.1.sort, pair.2.sort.head?)

theorem mem_clauseOf {pair : Finset ℕ × Finset ℕ} {i : ℕ} (hi : i ∈ (clauseOf pair).2) :
    i ∈ pair.2 :=
  (Finset.mem_sort _).mp (List.mem_of_head? hi)

theorem clauseIndexes_clauseOf {pair : Finset ℕ × Finset ℕ} (h : pair.2.card ≤ 1) :
    Boogie.clauseIndexes (clauseOf pair) = pair := by
  have hhead : pair.2.sort.head?.toFinset = pair.2 := by
    rcases Nat.le_one_iff_eq_zero_or_eq_one.mp h with h0 | h1
    · rw [Finset.card_eq_zero.mp h0, Finset.sort_empty]
      rfl
    · obtain ⟨i, hi⟩ := Finset.card_eq_one.mp h1
      rw [hi, Finset.sort_singleton]
      rfl
  unfold clauseOf Boogie.clauseIndexes
  rw [Finset.sort_toFinset, hhead]

/-- The constraints of the learner: a labelling of the points that is one of the nodes is
    consistent with them. -/
theorem Sampled.consistent {V : Value → Prop} {boolValue : Bool → ℤ}
    (h : Sampled V iface boolValue s) {μ : ℕ → Prop} (hμ : s.Models μ) {ν : Ptr → Bool}
    (hν : ∀ p < s.nodes.length, ν (.point p) = true ↔ μ p) :
    ∃ hcs, Boogie.indexes2hornConstraints s.datapoints.length s.hornIndexes = .ok hcs ∧
      hcs.length = s.hornIndexes.length ∧
      Consistent (s.sample iface hcs).mem (s.sample iface hcs).datapoints hcs [] [] ν := by
  have hclauses : (s.hornIndexes.map clauseOf).map Boogie.clauseIndexes = s.hornIndexes := by
    rw [List.map_map]
    conv_rhs => rw [← List.map_id s.hornIndexes]
    exact List.map_congr_left fun pair hpair => clauseIndexes_clauseOf (h.conclusion pair hpair)
  have hbounds : ∀ c ∈ s.hornIndexes.map clauseOf,
      (∀ i ∈ c.1, i < s.datapoints.length) ∧ ∀ i ∈ c.2, i < s.datapoints.length := by
    intro c hc
    obtain ⟨pair, hpair, rfl⟩ := List.mem_map.mp hc
    rw [h.length_datapoints]
    exact ⟨fun i hi => h.horn pair hpair i (Finset.mem_union_left _ ((Finset.mem_sort _).mp hi)),
      fun i hi => h.horn pair hpair i (Finset.mem_union_right _ (mem_clauseOf hi))⟩
  obtain ⟨hcs, hrun, htransfers⟩ := Boogie.indexes2hornConstraints_clauseIndexes hbounds
  rw [hclauses] at hrun
  refine ⟨hcs, hrun, ?_, ?_, by simp, by simp, fun hc hhc hprem => ?_⟩
  · rw [← htransfers.length_eq, List.length_map]
  · intro x hx b hb
    obtain ⟨p, hp, rfl⟩ := h.mem_datapoints.mp hx
    have hlabel : (s.point p).label = some b := by
      unfold label at hb
      rwa [h.mem_point hp] at hb
    have hiff := (hν p hp).trans (hμ.labels p b hlabel)
    exact Bool.eq_iff_iff.mpr hiff
  · obtain ⟨c, hc', ht⟩ := forall₂_mem_right htransfers hhc
    obtain ⟨pair, hpair, rfl⟩ := List.mem_map.mp hc'
    have hlt : ∀ i ∈ pair.1 ∪ pair.2, i < s.nodes.length := h.horn pair hpair
    obtain ⟨i, hi, hμi⟩ := hμ.horn pair hpair fun i hi => by
      have hmem : Ptr.point i ∈ hc.premises :=
        (ht.premises _).mpr ⟨i, (Finset.mem_sort _).mpr hi, rfl⟩
      exact (hν i (hlt i (Finset.mem_union_left _ hi))).mp (hprem _ hmem)
    have hsingle : (clauseOf pair).2 = some i := by
      have hset := congrArg Prod.snd (clauseIndexes_clauseOf (h.conclusion pair hpair))
      rw [← hset] at hi
      exact Option.mem_toFinset.mp hi
    refine ⟨.point i, by rw [ht.conclusion, hsingle]; rfl, ?_⟩
    exact (hν i (hlt i (Finset.mem_union_right _ hi))).mpr hμi

open Classical in
/-- The labelling of the nodes as one of the points. -/
noncomputable def labelOf (μ : ℕ → Prop) : Ptr → Bool
  | .point p => decide (μ p)
  | .falseDatapoint => false

/-- The constraints of the learner are satisfiable if the sample is. -/
theorem Sampled.satisfiable {V : Value → Prop} {boolValue : Bool → ℤ}
    (h : Sampled V iface boolValue s) {μ : ℕ → Prop} (hμ : s.Models μ) :
    ∃ hcs, Boogie.indexes2hornConstraints s.datapoints.length s.hornIndexes = .ok hcs ∧
      hcs.length = s.hornIndexes.length ∧ (s.sample iface hcs).Satisfiable := by
  have hlabel : ∀ p < s.nodes.length, labelOf μ (.point p) = true ↔ μ p :=
    fun p _ => by simp [labelOf]
  obtain ⟨hcs, hrun, hlen, hν⟩ := h.consistent hμ hlabel
  exact ⟨hcs, hrun, hlen, _, hν⟩

/-- The values of a data point can be read off its data. -/
theorem values_eq {d' : TeacherDatapoint} (hd : Recordable NotFalse d)
    (hd' : Recordable NotFalse d')
    (hpred : d.predicate = d'.predicate)
    (hdata : (withDerived d.values).map (Value.data lboolValue) =
      (withDerived d'.values).map (Value.data lboolValue)) : d = d' := by
  have hsorts : d.values.map Value.sort = d'.values.map Value.sort := by
    rw [hd.sorted, hd'.sorted, hpred]
  have hlen : d.values.length = d'.values.length := by simpa using congrArg List.length hsorts
  have hvalues : d.values.map (Value.data lboolValue) = d'.values.map (Value.data lboolValue) := by
    have htake := congrArg (List.take d.values.length) hdata
    unfold withDerived at htake
    rwa [List.map_append, List.map_append, List.take_left' (by simp), hlen,
      List.take_left' (by simp)] at htake
  have heq : d.values = d'.values := by
    refine List.ext_getElem hlen fun i hi hi' => ?_
    have hsort : d.values[i].sort = d'.values[i].sort := by
      have := List.getElem_of_eq hsorts (by simpa using hi)
      simpa using this
    have hval : d.values[i].data lboolValue = d'.values[i].data lboolValue := by
      have := List.getElem_of_eq hvalues (by simpa using hi)
      simpa using this
    cases hv : d.values[i] with
    | int n =>
      cases hv' : d'.values[i] with
      | int m => rw [hv, hv'] at hval; exact congrArg Value.int hval
      | bool b => rw [hv, hv'] at hsort; cases hsort
    | bool b =>
      cases hv' : d'.values[i] with
      | int m => rw [hv, hv'] at hsort; cases hsort
      | bool b' =>
        have hb : b = true := by
          cases b with
          | true => rfl
          | false => exact absurd hv (hd.values _ (List.getElem_mem hi))
        have hb' : b' = true := by
          cases b' with
          | true => rfl
          | false => exact absurd hv' (hd'.values _ (List.getElem_mem hi'))
        rw [hb, hb']
  cases d
  cases d'
  simp_all

/-- Different nodes have different data. -/
theorem Sampled.distinct (harity : ∀ decl ∈ iface.relations, 0 < decl.arity)
    (h : Sampled NotFalse iface lboolValue s) (hcs : List HornConstraint) :
    (s.sample iface hcs).Distinct := by
  intro x hx y hy hxy
  obtain ⟨p, hp, rfl⟩ := h.mem_datapoints.mp hx
  obtain ⟨q, hq, rfl⟩ := h.mem_datapoints.mp hy
  obtain ⟨d, i, hd, hrep, hdata⟩ := h.dataAt harity hp
  obtain ⟨d', j, hd', hrep', hdata'⟩ := h.dataAt harity hq
  rw [h.mem_point hp, h.mem_point hq]
  by_contra hsame
  push Not at hsame
  obtain ⟨hcat, hint⟩ := hsame
  rw [hdata.category, hdata'.category] at hcat
  obtain rfl : i = j := List.singleton_inj.mp hcat
  have hpred : d.predicate = d'.predicate :=
    Option.some.inj (hdata.relation.symm.trans hdata'.relation)
  rw [hdata.data, hdata'.data, List.append_assoc, List.append_assoc] at hint
  have hblock := List.append_inj_left' (List.append_cancel_left hint) (by simp)
  obtain rfl := values_eq hd hd' hpred hblock
  rw [Represented] at hrep hrep'
  exact hxy (congrArg Ptr.point (Option.some.inj (hrep.symm.trans hrep')))

/-- The bounds of the call suffice for the sample, and the gain ratios that the learner
    computes compare above their initial value. -/
structure Adequate (F : Type) [Score F] (iface : LearnerInterface) (s : Store) (call : Call) :
    Prop where
  steps : 2 * s.nodes.length < call.steps
  attempts : 6 ≤ call.attempts
  iterations : s.hornIndexes.length < call.iterations
  ratios : s.nodes ≠ [] → ∀ hcs,
    Boogie.indexes2hornConstraints s.datapoints.length s.hornIndexes = .ok hcs → ∀ n b,
    IsRun F call.env (s.sample iface hcs) call.steps (call.attempts - 1) ⟨1, call.useBounds⟩ n b →
      RatiosOk F (call.env n) (s.sample iface hcs) b.threshold

variable {F : Type} [Score F] {call : Call} {μ : ℕ → Prop}

/-- The learner returns a tree for a satisfiable sample. -/
theorem Sampled.learnDecisionTree_returns (harity : ∀ decl ∈ iface.relations, 0 < decl.arity)
    (h : Sampled NotFalse iface lboolValue s) (hμ : s.Models μ) (hcall : Adequate F iface s call) :
    ∃ tree, learnDecisionTree F iface call s = .ok (.returned tree) := by
  obtain ⟨hcs, hhcs, hlen, hsat⟩ := h.satisfiable hμ
  have hok := h.sample_ok harity hhcs
  have hintervals : iface.relations.length = iface.intervals.length := by
    simp [LearnerInterface.intervals]
  have hcategories : (s.invocation iface call hcs).sample.numberOfCategories =
      [(s.invocation iface call hcs).intervals.length] := by
    show [iface.relations.length] = [iface.intervals.length]
    rw [hintervals]
  have hiter : (s.invocation iface call hcs).sample.hornConstraints.length <
      (s.invocation iface call hcs).iterations := by
    show hcs.length < call.iterations
    rw [hlen]
    exact hcall.iterations
  have hfinds : FindsTree F (s.invocation iface call hcs) := by
    by_cases hnil : s.nodes = []
    · refine .inr ⟨.leaf true, ?_⟩
      obtain ⟨n, hn⟩ : ∃ n, call.attempts = n + 1 :=
        ⟨call.attempts - 1, by have := hcall.attempts; omega⟩
      show boundLoop F call.env (s.sample iface hcs) call.steps call.attempts _ = _
      rw [hn, boundLoop, attempt_empty hok (h.pointers_eq_nil hcs hnil) hsat]
    · refine (findsTree_iff hok hcategories hiter (h.distinct harity hcs) ?_ hcall.attempts
        (hcall.ratios hnil hcs hhcs)).mpr hsat
      show 2 * ((List.range s.datapoints.length).map Ptr.point).length < call.steps
      rw [List.length_map, List.length_range, h.length_datapoints]
      exact hcall.steps
  obtain ⟨tree, hrun⟩ := (tryBlock_iff (F := F) hok hcategories hiter).1.mpr ⟨rfl, hfinds⟩
  refine ⟨tree, handleExceptions_returned.mpr ?_⟩
  have hcategory : (s.invocation iface call []).sample.numberOfCategories =
    [iface.relations.length] := rfl
  have hmeta := (checkMetadata_ok hcategory).mpr hintervals
  simp only [hmeta, hhcs, bind, Except.bind]
  exact hrun

/-- The learner returns conjectures for a satisfiable sample. -/
theorem getConjectures_returns (hnames : (iface.relations.map FuncDecl.name).Nodup)
    (harity : ∀ decl ∈ iface.relations, 0 < decl.arity) (h : Sampled NotFalse iface lboolValue s)
    (hμ : s.Models μ) (hcall : Adequate F iface s call) :
    ∃ map, getConjectures F iface call s = .ok map := by
  obtain ⟨tree, hrun⟩ := h.learnDecisionTree_returns harity hμ hcall
  obtain ⟨hcs, hdelivered⟩ := h.learnDecisionTree_delivered harity hrun
  unfold getConjectures
  rw [hrun]
  rcases hdelivered.readable with hread | ⟨-, b, rfl⟩
  · obtain ⟨map, hmap, -⟩ := hread.translated (s := s) hnames harity call.random
    exact ⟨map, hmap⟩
  · exact ⟨_, rfl⟩

end Store

end HiceDt.Chc
