import HiceDt.Chc.SampleStore

/-!
# Comparing data points of the CHC teacher

Model of `hash` and `equal` of the teacher's data points
(`chc_verifier/include/datapoint.h`, lines 42–75) with the accesses of the loop. Its condition
lets the loop continue while one of the two iterators is not at its end, so the other one may
be dereferenced at its end. The keys of `teacher_datapoint_to_learner_datapoint` have derived
values, which a data point that is looked up may not have yet.

Results:

* `equal_of_checked`: the model of `equal` without accesses has the same value.
* `equal_exact_iff`: for which data points the comparison is safe and exact.
* `lookup_exact_iff`, `extended_exact`: which keys of the map they are.
-/

namespace HiceDt.Chc

open Loop

/-! ## `hash` and `equal` -/

/-- `hash` (`datapoint.h`, lines 42–51), for the hashes of Z3. -/
def TeacherDatapoint.hash (declHash : FuncDecl → UInt32) (exprHash : Value → UInt32)
    (d : TeacherDatapoint) : UInt32 :=
  d.values.foldl (fun hashValue v => hashValue + exprHash v) (declHash d.predicate)

/-- The loop of `equal`; an iterator must not be dereferenced at its end. -/
def equalValuesChecked : List Value → List Value → Except Error Bool
  | [], [] => .ok true
  | a :: as, b :: bs => if a = b then equalValuesChecked as bs else .ok false
  | [], _ :: _ => .error .undefinedBehaviour
  | _ :: _, [] => .error .undefinedBehaviour

/-- `equal` with its accesses. -/
def TeacherDatapoint.equalChecked (d d' : TeacherDatapoint) : Except Error Bool :=
  if d.predicate = d'.predicate then equalValuesChecked d.values d'.values else .ok false

variable {d d' : TeacherDatapoint} {as bs : List Value}

/-! ## Safety -/

/-- One of the vectors ends where the other one continues. -/
def ProperPrefix (as bs : List Value) : Prop := as ≠ bs ∧ (as <+: bs ∨ bs <+: as)

theorem properPrefix_cons {a b : Value} :
    ProperPrefix (a :: as) (b :: bs) ↔ a = b ∧ ProperPrefix as bs := by
  unfold ProperPrefix
  rw [List.cons_prefix_cons, List.cons_prefix_cons, Ne, List.cons.injEq]
  constructor
  · rintro ⟨hne, ⟨rfl, hp⟩ | ⟨rfl, hp⟩⟩
    · exact ⟨rfl, fun h => hne ⟨rfl, h⟩, .inl hp⟩
    · exact ⟨rfl, fun h => hne ⟨rfl, h⟩, .inr hp⟩
  · rintro ⟨rfl, hne, hp⟩
    exact ⟨fun h => hne h.2, hp.imp (fun h => ⟨rfl, h⟩) fun h => ⟨rfl, h⟩⟩

/-- The loop reads past the end, or it decides whether the vectors are equal. -/
theorem equalValuesChecked_cases :
    (ProperPrefix as bs ∧ equalValuesChecked as bs = .error .undefinedBehaviour) ∨
      (¬ ProperPrefix as bs ∧ equalValuesChecked as bs = .ok (decide (as = bs))) := by
  induction as generalizing bs with
  | nil =>
    cases bs with
    | nil => exact .inr ⟨fun h => h.1 rfl, rfl⟩
    | cons b bs => exact .inl ⟨⟨List.cons_ne_nil b bs |>.symm, .inl List.nil_prefix⟩, rfl⟩
  | cons a as ih =>
    cases bs with
    | nil => exact .inl ⟨⟨List.cons_ne_nil a as, .inr List.nil_prefix⟩, rfl⟩
    | cons b bs =>
      rw [equalValuesChecked, properPrefix_cons]
      split_ifs with hab
      · rcases @ih bs with ⟨hp, hrun⟩ | ⟨hp, hrun⟩
        · exact .inl ⟨⟨hab, hp⟩, hrun⟩
        · refine .inr ⟨fun h => hp h.2, hrun.trans ?_⟩
          congr 1
          rw [decide_eq_decide, List.cons.injEq]
          exact ⟨fun h => ⟨hab, h⟩, fun h => h.2⟩
      · refine .inr ⟨fun h => hab h.1, ?_⟩
        congr 1
        rw [eq_comm, decide_eq_false_iff_not, List.cons.injEq]
        exact fun h => hab h.1

theorem equalChecked_cases (d d' : TeacherDatapoint) :
    ((d.predicate = d'.predicate ∧ ProperPrefix d.values d'.values) ∧
        d.equalChecked d' = .error .undefinedBehaviour) ∨
      (¬ (d.predicate = d'.predicate ∧ ProperPrefix d.values d'.values) ∧
        d.equalChecked d' = .ok (decide (d = d'))) := by
  have heq : d = d' ↔ d.predicate = d'.predicate ∧ d.values = d'.values := by
    cases d
    cases d'
    rw [TeacherDatapoint.mk.injEq]
  unfold TeacherDatapoint.equalChecked
  split_ifs with hpredicate
  · rcases @equalValuesChecked_cases d.values d'.values with ⟨hp, hrun⟩ | ⟨hp, hrun⟩
    · exact .inl ⟨⟨hpredicate, hp⟩, hrun⟩
    · refine .inr ⟨fun h => hp h.2, hrun.trans ?_⟩
      congr 1
      rw [decide_eq_decide, heq]
      exact ⟨fun h => ⟨hpredicate, h⟩, fun h => h.2⟩
  · refine .inr ⟨fun h => hpredicate h.1, ?_⟩
    congr 1
    rw [eq_comm, decide_eq_false_iff_not, heq]
    exact fun h => hpredicate h.1

/-- If the loop does not read past an end, `equal` has this value. -/
theorem equal_of_checked {b : Bool} (h : d.equalChecked d' = .ok b) : d.equal d' = b := by
  rcases equalChecked_cases d d' with ⟨-, hrun⟩ | ⟨-, hrun⟩
  · rw [hrun] at h
    cases h
  · rw [hrun] at h
    rw [← Except.ok.inj h, Bool.eq_iff_iff, TeacherDatapoint.equal_iff, decide_eq_true_eq]

/-- The comparison reads only existing elements and says whether the predicates and the
    vectors are equal, and equal data points have the same hash. -/
def ComparesExactly (d d' : TeacherDatapoint) : Prop :=
  (∃ b, d.equalChecked d' = .ok b ∧
    (b = true ↔ d.predicate = d'.predicate ∧ d.values = d'.values)) ∧
  (d.equalChecked d' = .ok true →
    ∀ declHash exprHash, d.hash declHash exprHash = d'.hash declHash exprHash)

theorem comparesExactly_of_ok (hrun : d.equalChecked d' = .ok (decide (d = d'))) :
    ComparesExactly d d' := by
  refine ⟨⟨_, hrun, ?_⟩, fun htrue declHash exprHash => ?_⟩
  · rw [decide_eq_true_eq]
    cases d
    cases d'
    rw [TeacherDatapoint.mk.injEq]
  · rw [hrun] at htrue
    rw [of_decide_eq_true (Except.ok.inj htrue)]

theorem not_comparesExactly_of_error {e : Error} (hrun : d.equalChecked d' = .error e) :
    ¬ ComparesExactly d d' := by
  rintro ⟨⟨b, hb, -⟩, -⟩
  rw [hrun] at hb
  cases hb

/-- For all data points, the comparison is safe and exact iff they have different predicates,
    or none of the vectors is a proper prefix of the other. -/
theorem equal_exact_iff (d d' : TeacherDatapoint) : ComparesExactly d d' ↔
    ¬ (d.predicate = d'.predicate ∧ ProperPrefix d.values d'.values) := by
  rcases equalChecked_cases d d' with ⟨hp, hrun⟩ | ⟨hp, hrun⟩
  · exact iff_of_false (not_comparesExactly_of_error hrun) (not_not.mpr hp)
  · exact iff_of_true (comparesExactly_of_ok hrun) hp

/-! ## Keys -/

/-- The values have the sorts of the arguments. -/
def TeacherDatapoint.Sorted (d : TeacherDatapoint) : Prop :=
  d.values.map Value.sort = d.predicate.domain

theorem Sorted.basic (h : d.Sorted) : d.Basic := by
  unfold TeacherDatapoint.Basic FuncDecl.arity
  rw [← h, List.length_map]

/-- Keys of the map are compared exactly. -/
theorem extended_exact (hd : d.Sorted) (hd' : d'.Sorted) :
    ComparesExactly d.extended d'.extended := by
  rcases equalChecked_cases d.extended d'.extended with ⟨hp, -⟩ | ⟨-, hrun⟩
  swap
  · exact comparesExactly_of_ok hrun
  exfalso
  obtain ⟨hpredicate, hne, hpre⟩ := hp
  have hpredicate' : d.predicate = d'.predicate := hpredicate
  have hlen : d.extended.values.length = d'.extended.values.length := by
    have h := length_withDerived hd
    have h' := length_withDerived hd'
    rw [← hpredicate'] at h'
    exact h.trans h'.symm
  rcases hpre with hpre | hpre
  · exact hne (hpre.eq_of_length hlen)
  · exact hne (hpre.eq_of_length hlen.symm).symm

/-- A data point without derived values is compared exactly with a key unless it is the one
    from which the key is derived. -/
theorem lookup_exact_iff (hd : d.Sorted) (hd' : d'.Sorted) :
    ComparesExactly d d'.extended ↔ ¬ (d = d' ∧ d.extended ≠ d) := by
  have hproper : ComparesExactly d d'.extended ↔
      ¬ (d.predicate = d'.extended.predicate ∧ ProperPrefix d.values d'.extended.values) := by
    rcases equalChecked_cases d d'.extended with ⟨hp, hrun⟩ | ⟨hp, hrun⟩
    · exact iff_of_false (not_comparesExactly_of_error hrun) (not_not.mpr hp)
    · exact iff_of_true (comparesExactly_of_ok hrun) hp
  rw [hproper, not_iff_not]
  have hself : d'.values <+: d'.extended.values := List.prefix_append _ _
  constructor
  · rintro ⟨hpredicate, hne, hpre⟩
    have hlen : d.values.length = d'.values.length := by
      have h := Sorted.basic hd
      have h' := Sorted.basic hd'
      unfold TeacherDatapoint.Basic at h h'
      rw [h, h', show d.predicate = d'.predicate from hpredicate]
    have hvalues : d.values = d'.values := by
      rcases hpre with hpre | hpre
      · exact (List.prefix_of_prefix_length_le hpre hself hlen.le).eq_of_length hlen
      · exact ((hself.trans hpre).eq_of_length hlen.symm).symm
    obtain ⟨predicate, values⟩ := d
    obtain ⟨predicate', values'⟩ := d'
    obtain rfl : predicate = predicate' := hpredicate
    obtain rfl : values = values' := hvalues
    exact ⟨rfl, fun h => hne (congrArg TeacherDatapoint.values h).symm⟩
  · rintro ⟨rfl, hne⟩
    have hvalues : d.values ≠ d.extended.values := by
      intro h
      obtain ⟨predicate, values⟩ := d
      exact hne (congrArg (TeacherDatapoint.mk predicate) h.symm)
    exact ⟨rfl, hvalues, .inl hself⟩

/-- The sample after a positive counterexample with object 0. -/
def firstTwin : Store where
  objects := Function.update Store.twins 0 (Store.twins 0).extended
  nodes := [((Store.twins 0).extended, { intData := [1, 2, 3, -1], categoricalData := [0]
                                         isClassified := true, classification := true })]
  datapointPtrs := [0]

open Store in
theorem addCounterexamples_firstTwin :
    (initial twins).addCounterexamples ⟨[reach]⟩ boolToInt [⟨[], [0]⟩] = .ok firstTwin := by
  have h12 := learnerDatapoint_reach 1 2 (by decide) (by decide)
  have hr : List.idxOf? reach [reach] = some 0 := by simp [List.idxOf?]
  simp [addCounterexamples, addCounterexample, addLabel, getUniqueLearnerDatapoint, insertIfAbsent,
    Store.insert,
    initial, find, emplace, twins, hr, h12, bind, Except.bind, indexOfDatapointPtrs, addDatapoints,
    point,
    Store.setClassification, TeacherDatapoint.extended, TeacherDatapoint.equal, equalValues,
    withDerived, pairs, derivedValues, pure, Except.pure, firstTwin]

/-- Objects 0 and 1 have the same arguments. If object 1 is looked up after object 0 has been
    added, the comparison with the key reads past the end. -/
theorem equal_reads_past_end :
    ∃ s, (Store.initial Store.twins).addCounterexamples ⟨[Store.reach]⟩ Store.boolToInt
      [⟨[], [0]⟩] = .ok s ∧
      (Store.twins 0).extended ∈ s.keys ∧
      (s.objects 1).equalChecked (Store.twins 0).extended = .error .undefinedBehaviour ∧
      ¬ ComparesExactly (s.objects 1) (Store.twins 0).extended := by
  have hrun : (firstTwin.objects 1).equalChecked (Store.twins 0).extended =
    .error .undefinedBehaviour := rfl
  refine ⟨firstTwin, addCounterexamples_firstTwin, List.mem_singleton_self _, hrun, ?_⟩
  rintro ⟨⟨b, hb, -⟩, -⟩
  rw [hrun] at hb
  cases hb

end HiceDt.Chc
