import HiceDt.Boogie.Files

/-!
# What the sample of the Boogie teacher says

`RecordCexForC5` (`Boogie/Source/Houdini/MLHoudini.cs`, lines 1330–1588) keeps counterexamples
as labels of data points, and as Horn clauses over the indices of data points. A counterexample
says about the existential functions that one of the calls on its right-hand side is true if all
calls on its left-hand side are.

Results:

* `models_of_label`: what a label adds to the sample.
* `recordCexForC5_models`: what a counterexample adds.
* `sample_models_iff`: the sample says what the counterexamples say.
* `recordAll_all`: the data points of a sample are those of the counterexamples.
* `recordCexForC5_consistent`: when no assertion fails.
-/

namespace HiceDt.Boogie

open Loop Dictionary

/-! ## Meaning -/

/-- The data point of a tuple. -/
def IsPoint (tup : String × List Element) (dp : DataPoint) : Prop :=
  DataPoint.create tup.1 tup.2 = .ok dp

/-- The counterexample is satisfied by functions that are true for the data points in `ν`. -/
def Cex.Holds (cex : Cex) (ν : DataPoint → Prop) : Prop :=
  (∀ tup ∈ cex.lhs, ∀ dp, IsPoint tup dp → ν dp) → ∃ tup ∈ cex.rhs, ∃ dp, IsPoint tup dp ∧ ν dp

namespace Sample

/-- The index of the data point. -/
def HasIndex (s : Sample) (dp : DataPoint) (i : ℕ) : Prop :=
  s.c5samplePointToIndex.lookup dp = some i

/-- What the label of a data point says. -/
def Allows (label : ℕ) (holds : Prop) : Prop := (label = 1 → holds) ∧ (label = 2 → ¬ holds)

/-- If all premises of the clause hold, so does its conclusion. -/
def ClauseHolds (s : Sample) (ν : DataPoint → Prop) (clause : List ℕ × Option ℕ) : Prop :=
  (∀ i ∈ clause.1, ∀ dp, s.HasIndex dp i → ν dp) → ∃ i ∈ clause.2, ∃ dp, s.HasIndex dp i ∧ ν dp

/-- The labels and the Horn clauses are satisfied. -/
structure Models (s : Sample) (ν : DataPoint → Prop) : Prop where
  labels : ∀ dp label, s.c5samplePointToClassAttr.lookup dp = some label → Allows label (ν dp)
  clauses : ∀ clause ∈ s.hornClauses, s.ClauseHolds ν clause

theorem models_empty (ν : DataPoint → Prop) : ({} : Sample).Models ν where
  labels _ _ h := by cases h
  clauses _ h := by cases h

/-- Data points keep their indices. -/
structure Grows (s s' : Sample) : Prop where
  le : s.c5DataPointsIndex ≤ s'.c5DataPointsIndex
  index : ∀ dp i, i < s.c5DataPointsIndex → (s'.HasIndex dp i ↔ s.HasIndex dp i)

theorem Grows.refl (s : Sample) : s.Grows s := ⟨le_rfl, fun _ _ _ => Iff.rfl⟩

variable {s s' s'' : Sample}

theorem Grows.trans (h : s.Grows s') (h' : s'.Grows s'') : s.Grows s'' :=
  ⟨h.le.trans h'.le, fun dp i hi => (h'.index dp i (hi.trans_le h.le)).trans (h.index dp i hi)⟩

/-- A clause over old indices keeps its meaning. -/
theorem Grows.clauseHolds (h : s.Grows s') {ν : DataPoint → Prop} {clause : List ℕ × Option ℕ}
    (hlhs : ∀ i ∈ clause.1, i < s.c5DataPointsIndex)
    (hrhs : ∀ i ∈ clause.2, i < s.c5DataPointsIndex) :
    s'.ClauseHolds ν clause ↔ s.ClauseHolds ν clause := by
  refine imp_congr (forall₂_congr fun i hi => forall_congr' fun dp => ?_)
    (exists_congr fun i => and_congr_right fun hi => exists_congr fun dp => ?_)
  · rw [h.index dp i (hlhs i hi)]
  · rw [h.index dp i (hrhs i hi)]

end Sample

/-! ## Data points -/

variable {functions : List Function} {s s' : Sample} {dp : DataPoint} {label : ℕ}
  {ν : DataPoint → Prop}

open Sample

/-- A label that is attached to a new or an unlabelled data point. -/
theorem models_of_label (h : SampleInv functions s) (hgrows : s.Grows s')
    (hclauses : s'.hornClauses = s.hornClauses)
    (hlabel : ∀ x, s'.c5samplePointToClassAttr.lookup x =
      if x = dp then some label else s.c5samplePointToClassAttr.lookup x)
    (hold : ∀ old, s.c5samplePointToClassAttr.lookup dp = some old → old = 0 ∨ old = label) :
    s'.Models ν ↔ s.Models ν ∧ Allows label (ν dp) := by
  have hclause : ∀ clause ∈ s.hornClauses, (s'.ClauseHolds ν clause ↔ s.ClauseHolds ν clause) :=
    fun clause hc => hgrows.clauseHolds (h.clauses clause hc).2.1 (h.clauses clause hc).2.2
  constructor
  · intro hs'
    have hdp : Allows label (ν dp) := hs'.labels dp label (by rw [hlabel, if_pos rfl])
    refine ⟨⟨fun x l hx => ?_, fun clause hc => ?_⟩, hdp⟩
    · by_cases heq : x = dp
      · subst heq
        rcases hold l hx with rfl | rfl
        · exact ⟨by omega, by omega⟩
        · exact hdp
      · exact hs'.labels x l (by rw [hlabel, if_neg heq, hx])
    · rw [← hclause clause hc]
      exact hs'.clauses clause (hclauses ▸ hc)
  · rintro ⟨hs, hdp⟩
    refine ⟨fun x l hx => ?_, fun clause hc => ?_⟩
    · rw [hlabel] at hx
      split_ifs at hx with heq
      · rw [heq, ← Option.some.inj hx]
        exact hdp
      · exact hs.labels x l hx
    · rw [hclauses] at hc
      rw [hclause clause hc]
      exact hs.clauses clause hc

/-- A new data point. -/
theorem addDataPoint_models (h : SampleInv functions s)
    (hnew : s.c5samplePointToIndex.lookup dp = none) (hrun : s.addDataPoint dp label = .ok s') :
    s.Grows s' ∧ s'.HasIndex dp s.c5DataPointsIndex ∧
      (s'.Models ν ↔ s.Models ν ∧ Allows label (ν dp)) := by
  unfold addDataPoint at hrun
  split_ifs at hrun
  have hs' := Except.ok.inj hrun
  have hindex : ∀ x, s'.c5samplePointToIndex.lookup x =
      if x = dp then some s.c5DataPointsIndex else s.c5samplePointToIndex.lookup x := by
    rw [← hs']
    exact lookup_set _ _ _
  have hgrows : s.Grows s' := by
    refine ⟨by rw [← hs']; exact Nat.le_succ _, fun x i hi => ?_⟩
    rw [HasIndex, hindex]
    split_ifs with heq
    · rw [heq, HasIndex, hnew]
      simp only [Option.some.injEq, reduceCtorEq, iff_false]
      omega
    · rfl
  refine ⟨hgrows, by rw [HasIndex, hindex, if_pos rfl],
    models_of_label h hgrows (by rw [← hs']) (by rw [← hs']; exact lookup_set _ _ _) ?_⟩
  intro old hold
  have hmem : dp ∈ keys s.c5samplePointToIndex := h.keys ▸ mem_keys_of_mem (mem_of_lookup hold)
  exact absurd hmem (not_mem_keys_iff.mpr hnew)

/-- A positive or negative counterexample adds its label. -/
theorem recordLabel_models (h : SampleInv functions s) {forbidden : ℕ}
    (hlabels : ∀ old ≤ 2, old ≠ forbidden → old = 0 ∨ old = label)
    (hrun : s.recordLabel dp label forbidden = .ok s') :
    s'.Models ν ↔ s.Models ν ∧ Allows label (ν dp) := by
  unfold recordLabel at hrun
  cases hlookup : s.c5samplePointToIndex.lookup dp with
  | none =>
    rw [hlookup, Option.isSome_none, if_neg Bool.false_ne_true] at hrun
    exact (addDataPoint_models h hlookup hrun).2.2
  | some i =>
    rw [hlookup, Option.isSome_some, if_pos rfl] at hrun
    cases hold : s.c5samplePointToClassAttr.lookup dp with
    | none =>
      rw [hold] at hrun
      cases hrun
    | some old =>
      rw [hold] at hrun
      obtain ⟨_, hassert, hrun⟩ := bind_ok.mp hrun
      have hne : old ≠ forbidden := of_decide_eq_true (assert_eq_ok hassert)
      obtain rfl := Except.ok.inj hrun
      refine models_of_label h ⟨le_rfl, fun _ _ _ => Iff.rfl⟩ rfl (fun x => lookup_set _ _ _ x) ?_
      intro old' hold'
      rw [hold] at hold'
      obtain rfl := Option.some.inj hold'
      exact hlabels old (h.labels _ (mem_of_lookup hold)) hne

/-! ## Horn clauses -/

/-- The index stands for the tuple. -/
def Sample.Stands (s : Sample) (tup : String × List Element) (i : ℕ) : Prop :=
  ∃ dp, IsPoint tup dp ∧ s.HasIndex dp i

theorem Sample.Stands.grows {tup : String × List Element} {i : ℕ} (h : s.Stands tup i)
    (hgrows : s.Grows s') (hi : i < s.c5DataPointsIndex) : s'.Stands tup i := by
  obtain ⟨dp, hdp, hindex⟩ := h
  exact ⟨dp, hdp, (hgrows.index dp i hi).mpr hindex⟩

/-- A tuple of a Horn counterexample. -/
theorem recordPoint_models (h : SampleInv functions s) {tup : String × List Element} {i : ℕ}
    (hrun : s.recordPoint tup = .ok (i, s')) :
    s.Grows s' ∧ s'.Stands tup i ∧ (s'.Models ν ↔ s.Models ν) := by
  obtain ⟨dp, hdp, hrun⟩ := bind_ok.mp hrun
  cases hlookup : s.c5samplePointToIndex.lookup dp with
  | some index =>
    rw [hlookup] at hrun
    obtain ⟨rfl, rfl⟩ := Prod.mk.inj (Except.ok.inj hrun)
    exact ⟨.refl s, ⟨dp, hdp, hlookup⟩, Iff.rfl⟩
  | none =>
    rw [hlookup] at hrun
    obtain ⟨s₁, hadd, hret⟩ := bind_ok.mp hrun
    obtain ⟨rfl, rfl⟩ := Prod.mk.inj (Except.ok.inj hret)
    obtain ⟨hgrows, hindex, hmodels⟩ := addDataPoint_models (ν := ν) h hlookup hadd
    refine ⟨hgrows, ⟨dp, hdp, hindex⟩, hmodels.trans (and_iff_left ?_)⟩
    exact ⟨by omega, by omega⟩

theorem recordPoints_models {tups : List (String × List Element)} : ∀ {s s' : Sample} {is : List ℕ},
    SampleInv functions s → (∀ tup ∈ tups, WellFormed functions tup) →
    s.recordPoints tups = .ok (is, s') →
    s.Grows s' ∧ List.Forall₂ s'.Stands tups is ∧ (s'.Models ν ↔ s.Models ν) := by
  induction tups with
  | nil =>
    intro s s' is _ _ hrun
    obtain ⟨rfl, rfl⟩ := Prod.mk.inj (Except.ok.inj hrun)
    exact ⟨.refl s, .nil, Iff.rfl⟩
  | cons tup tups ih =>
    intro s s' is h htups hrun
    obtain ⟨⟨i, s₁⟩, hfirst, hrun⟩ := bind_ok.mp hrun
    obtain ⟨⟨is', s₂⟩, hrest, hret⟩ := bind_ok.mp hrun
    obtain ⟨rfl, rfl⟩ := Prod.mk.inj (Except.ok.inj hret)
    obtain ⟨h₁, -, hi⟩ := recordPoint_inv h (htups tup List.mem_cons_self) hfirst
    obtain ⟨hgrows₁, hstands, hmodels₁⟩ := recordPoint_models (ν := ν) h hfirst
    obtain ⟨hgrows₂, hall, hmodels₂⟩ := ih h₁ (fun t ht => htups t (List.mem_cons_of_mem _ ht))
      hrest
    exact ⟨hgrows₁.trans hgrows₂, .cons (hstands.grows hgrows₂ hi) hall, hmodels₂.trans hmodels₁⟩

/-- The data points of a tuple satisfy `ν` iff the one with its index does. -/
theorem Sample.Stands.forall_iff (h : SampleInv functions s) {tup : String × List Element} {i : ℕ}
    (hi : s.Stands tup i) :
    (∀ dp, s.HasIndex dp i → ν dp) ↔ ∀ dp, IsPoint tup dp → ν dp := by
  obtain ⟨x, hx, hindex⟩ := hi
  constructor
  · intro hall dp hdp
    rw [Except.ok.inj (hdp.symm.trans hx)]
    exact hall x hindex
  · intro hall dp hdp
    rw [h.unique_index hdp hindex]
    exact hall x hx

/-- A clause whose indices stand for the tuples of a counterexample. -/
theorem clauseHolds_iff (h : SampleInv functions s) {cex : Cex} {is : List ℕ} {o : Option ℕ}
    (hlhs : List.Forall₂ s.Stands cex.lhs is) (hrhs : List.Forall₂ s.Stands cex.rhs o.toList) :
    s.ClauseHolds ν (is, o) ↔ cex.Holds ν := by
  refine imp_congr ⟨fun hall tup htup => ?_, fun hall i hi => ?_⟩ ⟨?_, ?_⟩
  · obtain ⟨i, hi, hstands⟩ := forall₂_mem_right hlhs.flip htup
    exact (Stands.forall_iff h hstands).mp (hall i hi)
  · obtain ⟨tup, htup, hstands⟩ := forall₂_mem_right hlhs hi
    exact (Stands.forall_iff h hstands).mpr (hall tup htup)
  · rintro ⟨i, hi, dp, hdp, hν⟩
    obtain ⟨tup, htup, x, hx, hindex⟩ := forall₂_mem_right hrhs (Option.mem_toList.mpr hi)
    exact ⟨tup, htup, x, hx, h.unique_index hdp hindex ▸ hν⟩
  · rintro ⟨tup, htup, dp, hdp, hν⟩
    obtain ⟨i, hi, x, hx, hindex⟩ := forall₂_mem_right hrhs.flip htup
    refine ⟨i, Option.mem_toList.mp hi, x, hindex, ?_⟩
    rw [← Except.ok.inj (hdp.symm.trans hx)]
    exact hν

/-- A Horn counterexample adds its clause, if that is recorded. -/
theorem recordHorn_models (h : SampleInv functions s) {cex : Cex} (hcex : cex.WellFormed functions)
    (hne : 0 < cex.lhs.length) (hsize : cex.rhs.length ≤ 1) {recordHornClause : Bool}
    (hrun : s.recordHorn cex recordHornClause = .ok s') :
    s'.Models ν ↔ s.Models ν ∧ (recordHornClause = true → cex.Holds ν) := by
  have h' := recordHorn_inv h hne hcex.1 hcex.2 hrun
  obtain ⟨⟨is, s₁⟩, hpoints, hrun⟩ := bind_ok.mp hrun
  obtain ⟨_, _, hrun⟩ := bind_ok.mp hrun
  obtain ⟨⟨o, s₂⟩, hpoint, hrun⟩ := bind_ok.mp hrun
  obtain ⟨h₁, -, his, -⟩ := recordPoints_inv h hcex.1 hpoints
  obtain ⟨-, hlhs, hmodels₁⟩ := recordPoints_models (ν := ν) h hcex.1 hpoints
  obtain ⟨h₂, -, -⟩ := recordRhs_inv h₁ hcex.2 hpoint
  have hright : s₁.Grows s₂ ∧ List.Forall₂ s₂.Stands cex.rhs o.toList ∧
      (s₂.Models ν ↔ s₁.Models ν) := by
    cases hr : cex.rhs with
    | nil =>
      rw [hr] at hpoint
      obtain ⟨rfl, rfl⟩ := Prod.mk.inj (Except.ok.inj hpoint)
      exact ⟨.refl _, .nil, Iff.rfl⟩
    | cons tup rest =>
      rw [hr, List.length_cons] at hsize
      obtain rfl := List.eq_nil_of_length_eq_zero (show rest.length = 0 by omega)
      rw [hr] at hpoint
      obtain ⟨⟨i, s₃⟩, hfirst, hret⟩ := bind_ok.mp hpoint
      obtain ⟨rfl, rfl⟩ := Prod.mk.inj (Except.ok.inj hret)
      obtain ⟨hgrows, hstands, hmodels⟩ := recordPoint_models (ν := ν) h₁ hfirst
      exact ⟨hgrows, .cons hstands .nil, hmodels⟩
  obtain ⟨hgrows, hrhs, hmodels₂⟩ := hright
  have hboth : s₂.Models ν ↔ s.Models ν := hmodels₂.trans hmodels₁
  cases recordHornClause with
  | false =>
    obtain rfl := Except.ok.inj hrun
    simpa using hboth
  | true =>
    obtain rfl := Except.ok.inj hrun
    have hlhs₂ : List.Forall₂ s₂.Stands cex.lhs is := by
      refine List.forall₂_iff_zip.mpr ⟨hlhs.length_eq, fun {tup i} hmem => ?_⟩
      exact ((List.forall₂_iff_zip.mp hlhs).2 hmem).grows hgrows (his i (List.of_mem_zip hmem).2)
    have hclause := clauseHolds_iff (ν := ν) h₂ hlhs₂ hrhs
    rw [← hboth, ← hclause]
    constructor
    · intro hs'
      refine ⟨⟨hs'.labels, fun clause hc => hs'.clauses clause (List.mem_append_left _ hc)⟩,
        fun _ => ?_⟩
      exact hs'.clauses (is, o) (List.mem_append_right _ (List.mem_singleton_self _))
    · rintro ⟨hs₂, hnew⟩
      refine ⟨hs₂.labels, fun clause hc => ?_⟩
      rcases List.mem_append.mp hc with hc | hc
      · exact hs₂.clauses clause hc
      · rw [List.mem_singleton.mp hc]
        exact hnew rfl

/-! ## Counterexamples -/

/-- Positive and negative counterexamples are always recorded, Horn clauses on demand. -/
def Counts (c : Cex × Bool) : Prop := c.2 = true ∨ c.1.lhs.length + c.1.rhs.length = 1

theorem holds_positive {tup : String × List Element} (h : IsPoint tup dp) :
    Cex.Holds ⟨[], [tup]⟩ ν ↔ Allows 1 (ν dp) := by
  constructor
  · intro hcex
    obtain ⟨tup', htup, x, hx, hν⟩ := hcex fun tup' htup' => absurd htup' List.not_mem_nil
    rw [List.mem_singleton.mp htup] at hx
    rw [← Except.ok.inj (hx.symm.trans h)]
    exact ⟨fun _ => hν, by omega⟩
  · exact fun hallows _ => ⟨tup, List.mem_singleton_self _, dp, h, hallows.1 rfl⟩

theorem holds_negative {tup : String × List Element} (h : IsPoint tup dp) :
    Cex.Holds ⟨[tup], []⟩ ν ↔ Allows 2 (ν dp) := by
  constructor
  · refine fun hcex => ⟨by omega, fun _ hν => ?_⟩
    obtain ⟨_, hmem, -⟩ := hcex fun tup' htup' x hx => by
      rw [List.mem_singleton.mp htup'] at hx
      rw [Except.ok.inj (hx.symm.trans h)]
      exact hν
    exact List.not_mem_nil hmem
  · intro hallows hall
    exact absurd (hall tup (List.mem_singleton_self _) dp h) (hallows.2 rfl)

/-- A counterexample adds what it says, if it counts. -/
theorem recordCexForC5_models (h : SampleInv functions s) {c : Cex × Bool}
    (hcex : c.1.WellFormed functions) (hrun : s.recordCexForC5 c.1 c.2 = .ok s') :
    s'.Models ν ↔ s.Models ν ∧ (Counts c → c.1.Holds ν) := by
  obtain ⟨⟨lhs, rhs⟩, recordHornClause⟩ := c
  unfold recordCexForC5 at hrun
  dsimp only at hrun
  split at hrun
  · obtain ⟨dp, hdp, hrun⟩ := bind_ok.mp hrun
    have hcounts : ∀ tup, Counts (⟨[], [tup]⟩, recordHornClause) := fun _ => .inr rfl
    rw [recordLabel_models h (fun _ _ _ => by omega) hrun, holds_positive hdp]
    exact and_congr_right fun _ => (imp_iff_right (hcounts _)).symm
  · obtain ⟨dp, hdp, hrun⟩ := bind_ok.mp hrun
    have hcounts : ∀ tup, Counts (⟨[tup], []⟩, recordHornClause) := fun _ => .inr rfl
    rw [recordLabel_models h (fun _ _ _ => by omega) hrun, holds_negative hdp]
    exact and_congr_right fun _ => (imp_iff_right (hcounts _)).symm
  · rename_i hpositive hnegative
    split_ifs at hrun with hsize
    have hcounts : Counts (⟨lhs, rhs⟩, recordHornClause) ↔ recordHornClause = true := by
      refine or_iff_left fun hone => ?_
      dsimp only at hone
      obtain ⟨tup, hlhs⟩ := List.length_eq_one_iff.mp (show lhs.length = 1 by omega)
      exact hnegative tup hlhs (List.eq_nil_of_length_eq_zero (by omega))
    rw [recordHorn_models h hcex hsize.1 hsize.2 hrun, hcounts]

theorem recordAll_append {cexs cexs' : List (Cex × Bool)} {s'' : Sample}
    (hrun : s.recordAll cexs = .ok s') (hrun' : s'.recordAll cexs' = .ok s'') :
    s.recordAll (cexs ++ cexs') = .ok s'' := by
  rw [recordAll, List.foldlM_append]
  exact bind_ok.mpr ⟨s', hrun, hrun'⟩

/-- After any sequence of counterexamples the labels and the Horn clauses say what the
    counterexamples say. -/
theorem recordAll_models {cexs : List (Cex × Bool)} (hcexs : ∀ c ∈ cexs, c.1.WellFormed functions)
    (h : SampleInv functions s) (hrun : s.recordAll cexs = .ok s') :
    s'.Models ν ↔ s.Models ν ∧ ∀ c ∈ cexs, Counts c → c.1.Holds ν := by
  refine (foldlM_ok_spec (I := fun done t => SampleInv functions t ∧
      (t.Models ν ↔ s.Models ν ∧ ∀ c ∈ done, Counts c → c.1.Holds ν))
    (fun done c rest t t' hl ht hstep => ?_) ⟨h, by simp⟩ hrun).2
  have hc : c.1.WellFormed functions := hcexs c (hl ▸ List.mem_append_right done List.mem_cons_self)
  refine ⟨recordCexForC5_inv ht.1 hc hstep, ?_⟩
  rw [recordCexForC5_models ht.1 hc hstep, ht.2, and_assoc, List.forall_mem_append,
    List.forall_mem_singleton]

namespace Sample

/-- All data points of the sample. -/
def All (s : Sample) (P : DataPoint → Prop) : Prop := ∀ dp i, s.HasIndex dp i → P dp

variable {P : DataPoint → Prop}

theorem addDataPoint_all (h : s.All P) (hdp : P dp) (hrun : s.addDataPoint dp label = .ok s') :
    s'.All P := by
  unfold addDataPoint at hrun
  split_ifs at hrun
  obtain rfl := Except.ok.inj hrun
  intro x i hx
  rw [HasIndex, lookup_set] at hx
  split_ifs at hx with heq
  · exact heq ▸ hdp
  · exact h x i hx

theorem recordLabel_all (h : s.All P) (hdp : P dp) {forbidden : ℕ}
    (hrun : s.recordLabel dp label forbidden = .ok s') : s'.All P := by
  unfold recordLabel at hrun
  split_ifs at hrun
  · cases hold : s.c5samplePointToClassAttr.lookup dp with
    | none =>
      rw [hold] at hrun
      cases hrun
    | some old =>
      rw [hold] at hrun
      obtain ⟨_, -, hrun⟩ := bind_ok.mp hrun
      obtain rfl := Except.ok.inj hrun
      exact h
  · exact addDataPoint_all h hdp hrun

theorem recordPoint_all (h : s.All P) {tup : String × List Element}
    (htup : ∀ dp, IsPoint tup dp → P dp)
    {i : ℕ} (hrun : s.recordPoint tup = .ok (i, s')) : s'.All P := by
  obtain ⟨dp, hdp, hrun⟩ := bind_ok.mp hrun
  cases hlookup : s.c5samplePointToIndex.lookup dp with
  | some index =>
    rw [hlookup] at hrun
    obtain ⟨-, rfl⟩ := Prod.mk.inj (Except.ok.inj hrun)
    exact h
  | none =>
    rw [hlookup] at hrun
    obtain ⟨s₁, hadd, hret⟩ := bind_ok.mp hrun
    obtain ⟨-, rfl⟩ := Prod.mk.inj (Except.ok.inj hret)
    exact addDataPoint_all h (htup dp hdp) hadd

theorem recordPoints_all {tups : List (String × List Element)}
    (htups : ∀ tup ∈ tups, ∀ dp, IsPoint tup dp → P dp) : ∀ {s s' : Sample} {is : List ℕ},
    s.All P → s.recordPoints tups = .ok (is, s') → s'.All P := by
  induction tups with
  | nil =>
    intro s s' is h hrun
    obtain ⟨-, rfl⟩ := Prod.mk.inj (Except.ok.inj hrun)
    exact h
  | cons tup tups ih =>
    intro s s' is h hrun
    obtain ⟨⟨i, s₁⟩, hfirst, hrun⟩ := bind_ok.mp hrun
    obtain ⟨⟨is', s₂⟩, hrest, hret⟩ := bind_ok.mp hrun
    obtain ⟨-, rfl⟩ := Prod.mk.inj (Except.ok.inj hret)
    obtain ⟨htup, hothers⟩ := List.forall_mem_cons.mp htups
    exact ih hothers (recordPoint_all h htup hfirst) hrest


theorem recordHorn_all (h : s.All P) {cex : Cex}
    (hlhs : ∀ tup ∈ cex.lhs, ∀ dp, IsPoint tup dp → P dp)
    (hrhs : ∀ tup ∈ cex.rhs, ∀ dp, IsPoint tup dp → P dp) {recordHornClause : Bool}
    (hrun : s.recordHorn cex recordHornClause = .ok s') : s'.All P := by
  obtain ⟨⟨is, s₁⟩, hpoints, hrun⟩ := bind_ok.mp hrun
  obtain ⟨_, -, hrun⟩ := bind_ok.mp hrun
  obtain ⟨⟨o, s₂⟩, hpoint, hrun⟩ := bind_ok.mp hrun
  have h₁ : s₁.All P := recordPoints_all hlhs h hpoints
  have h₂ : s₂.All P := by
    unfold recordRhs at hpoint
    split at hpoint
    · rename_i tup heq
      obtain ⟨⟨i, s₃⟩, hfirst, hret⟩ := bind_ok.mp hpoint
      obtain ⟨-, rfl⟩ := Prod.mk.inj (Except.ok.inj hret)
      exact recordPoint_all h₁ (hrhs tup (heq ▸ List.mem_cons_self)) hfirst
    · obtain ⟨-, rfl⟩ := Prod.mk.inj (Except.ok.inj hpoint)
      exact h₁
  cases recordHornClause with
  | false => exact Except.ok.inj hrun ▸ h₂
  | true => exact Except.ok.inj hrun ▸ h₂

/-- A counterexample adds its own data points. -/
theorem recordCexForC5_all (h : s.All P) {cex : Cex}
    (hlhs : ∀ tup ∈ cex.lhs, ∀ dp, IsPoint tup dp → P dp)
    (hrhs : ∀ tup ∈ cex.rhs, ∀ dp, IsPoint tup dp → P dp) {recordHornClause : Bool}
    (hrun : s.recordCexForC5 cex recordHornClause = .ok s') : s'.All P := by
  obtain ⟨lhs, rhs⟩ := cex
  unfold recordCexForC5 at hrun
  dsimp only at hrun hlhs hrhs
  split at hrun
  · obtain ⟨dp, hdp, hrun⟩ := bind_ok.mp hrun
    exact recordLabel_all h (hrhs _ (List.mem_singleton_self _) dp hdp) hrun
  · obtain ⟨dp, hdp, hrun⟩ := bind_ok.mp hrun
    exact recordLabel_all h (hlhs _ (List.mem_singleton_self _) dp hdp) hrun
  · split_ifs at hrun
    exact recordHorn_all h hlhs hrhs hrun

end Sample

/-- The data points of a counterexample. -/
def Cex.All (cex : Cex) (P : DataPoint → Prop) : Prop :=
  ∀ tup ∈ cex.lhs ++ cex.rhs, ∀ dp, IsPoint tup dp → P dp

/-- The data points after any sequence of counterexamples. -/
theorem recordAll_all {P : DataPoint → Prop} {cexs : List (Cex × Bool)}
    (hcexs : ∀ c ∈ cexs, c.1.All P)
    {s s' : Sample} (h : s.All P) (hrun : s.recordAll cexs = .ok s') : s'.All P := by
  refine foldlM_ok_spec (I := fun _ t => t.All P) (fun done c rest t t' hl ht hstep => ?_) h hrun
  have hc := hcexs c (hl ▸ List.mem_append_right done List.mem_cons_self)
  exact Sample.recordCexForC5_all ht (fun tup htup => hc tup (List.mem_append_left _ htup))
    (fun tup htup => hc tup (List.mem_append_right _ htup)) hstep

/-! ## Consistent labels -/

theorem addDataPoint_consistent {sample : Sample} {dp : DataPoint} {label : ℕ} :
    sample.addDataPoint dp label ≠ .error .assertionFailure := by
  unfold Sample.addDataPoint
  split_ifs
  · exact fun herror => by cases herror
  · exact fun herror => by cases herror

/-- A data point that is labelled twice has one label. -/
theorem recordLabel_consistent {sample : Sample} {ν : DataPoint → Prop} (hmodels : sample.Models ν)
    {dp : DataPoint} {label forbidden : ℕ} (hlabel : ¬ (Sample.Allows forbidden (ν dp))) :
    sample.recordLabel dp label forbidden ≠ .error .assertionFailure := by
  unfold Sample.recordLabel
  split_ifs
  · cases hold : sample.c5samplePointToClassAttr.lookup dp with
    | none => exact fun herror => by cases herror
    | some old =>
      have hne : old ≠ forbidden := by
        rintro rfl
        exact hlabel (hmodels.labels dp _ hold)
      have hassert : assert (decide (old ≠ forbidden)) = .ok () := by
        rw [decide_eq_true hne]
        rfl
      dsimp only
      rw [hassert]
      exact fun herror => by cases herror
  · exact addDataPoint_consistent

theorem recordPoint_consistent {sample : Sample} {tup : String × List Element}
    (htup : ∃ dp, IsPoint tup dp) : sample.recordPoint tup ≠ .error .assertionFailure := by
  obtain ⟨dp, hdp⟩ := htup
  refine bind_ne_error (fun herror => by cases hdp.symm.trans herror) fun x _ => ?_
  cases sample.c5samplePointToIndex.lookup x with
  | some index => exact fun herror => by cases herror
  | none => exact bind_ne_error addDataPoint_consistent fun _ _ herror => by cases herror

theorem recordPoints_consistent {tups : List (String × List Element)}
    (htups : ∀ tup ∈ tups, ∃ dp, IsPoint tup dp) :
    ∀ sample : Sample, sample.recordPoints tups ≠ .error .assertionFailure := by
  induction tups with
  | nil => exact fun _ herror => by cases herror
  | cons tup tups ih =>
    obtain ⟨hfirst, hrest⟩ := List.forall_mem_cons.mp htups
    intro sample
    refine bind_ne_error (recordPoint_consistent hfirst) fun x _ => ?_
    exact bind_ne_error (ih hrest x.2) fun _ _ herror => by cases herror

/-- No assertion about a counterexample fails if it can be satisfied together with the sample. -/
theorem recordCexForC5_consistent {functions : List Function} {sample : Sample}
    (hinv : SampleInv functions sample) {ν : DataPoint → Prop} (hmodels : sample.Models ν)
    {cex : Cex}
    (hcex : cex.WellFormed functions) (hpoints : ∀ tup ∈ cex.lhs ++ cex.rhs, ∃ dp, IsPoint tup dp)
    (hholds : cex.Holds ν) (recordHornClause : Bool) :
    sample.recordCexForC5 cex recordHornClause ≠ .error .assertionFailure := by
  obtain ⟨lhs, rhs⟩ := cex
  unfold Sample.recordCexForC5
  dsimp only
  split
  · rename_i tup
    obtain ⟨dp, hdp⟩ := hpoints tup (List.mem_singleton_self _)
    refine bind_ne_error (fun herror => by cases hdp.symm.trans herror) fun x hx => ?_
    have hallows := (holds_positive hx).mp hholds
    exact recordLabel_consistent hmodels fun hforbidden => hforbidden.2 rfl (hallows.1 rfl)
  · rename_i tup
    obtain ⟨dp, hdp⟩ := hpoints tup (List.mem_singleton_self _)
    refine bind_ne_error (fun herror => by cases hdp.symm.trans herror) fun x hx => ?_
    have hallows := (holds_negative hx).mp hholds
    exact recordLabel_consistent hmodels fun hforbidden => hallows.2 rfl (hforbidden.1 rfl)
  · split_ifs
    · obtain ⟨hlhs, hrhs⟩ := List.forall_mem_append.mp hpoints
      refine bind_ne_error (recordPoints_consistent hlhs sample) fun x hx => ?_
      have hlength : lhs.length = x.1.length := (recordPoints_inv hinv hcex.1 hx).2.2.2.symm
      refine bind_ne_error ?_ fun _ _ => bind_ne_error ?_ fun y _ => ?_
      · rw [decide_eq_true hlength]
        exact fun herror => by cases herror
      · unfold Sample.recordRhs
        dsimp only
        split
        · exact bind_ne_error (recordPoint_consistent (hrhs _ List.mem_cons_self))
            fun _ _ herror => by cases herror
        · exact fun herror => by cases herror
      · cases recordHornClause <;> exact fun herror => by cases herror
    · exact fun herror => by cases herror

end HiceDt.Boogie
