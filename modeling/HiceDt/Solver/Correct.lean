import HiceDt.Solver.PropagateFalse
import HiceDt.Solver.Setup

/-!
# Correctness of the Horn solver

`solve` decides whether a consistent total labelling exists, leaves exactly the
entailed labels in `positive` and `negative`, and gives back the data points as
it found them. No assumption is made about the order in which unordered sets are
visited or about what earlier calls left in the solver's members.

Results:

* `solve_spec`: the contract of a call, used by the learner.
* `solve_iff_satisfiable`: termination, and the answer is exact.
* `solve_entailed`: the sets are exact.
-/

namespace HiceDt.Solver

open HiceDt Horn SolverState

variable {D : List Ptr} {m₀ : Heap} {hcs : List HornConstraint} {P N : List Ptr}
  {st : SolverState}

/-! ## Restoring the data points -/

/-- A data point with a restored label and empty lists. -/
def restored (d : Datapoint) (copy : Bool × Bool) : Datapoint :=
  { d with
    classification := copy.1, isClassified := copy.2
    listOfMarking := [], listOfHornConstraints := [] }

theorem foldl_rollBackDatapoint (f : Ptr → Bool × Bool) : ∀ (l : List Ptr) (m : Heap) (x : Ptr),
    (l.zip (l.map f)).foldl (fun m xc => rollBackDatapoint m xc.1 xc.2) m x =
      if x ∈ l then restored (m x) (f x) else m x := by
  intro l
  induction l with
  | nil => intro m x; rfl
  | cons y l ih =>
    intro m x
    rw [List.map_cons, List.zip_cons_cons, List.foldl_cons, ih]
    by_cases hxy : x = y
    · subst hxy
      have : rollBackDatapoint m x (f x) x = restored (m x) (f x) := by
        simp [rollBackDatapoint, restored]
      rw [this, if_pos List.mem_cons_self]
      split_ifs <;> rfl
    · have : rollBackDatapoint m y (f y) x = m x := Function.update_of_ne hxy _ _
      rw [this]
      simp [hxy]

/-- Everything but `_false_datapoint` is as the call found it. -/
theorem mem_clearMembers_rollBack (hv : ScopedInput m₀ D hcs P N) (hf : Frame D m₀ st.mem)
    (hc : st.copyOfDatapoints = D.map fun x => ((m₀ x).classification, (m₀ x).isClassified))
    {x : Ptr} (hx : x ≠ .falseDatapoint) :
    (clearMembers (rollBackDatapoints D st)).mem x = m₀ x := by
  have h1 : (clearMembers (rollBackDatapoints D st)).mem x = (rollBackDatapoints D st).mem x :=
    Function.update_of_ne hx _ _
  rw [h1]
  unfold rollBackDatapoints
  rw [hc]
  simp only [foldl_rollBackDatapoint]
  split_ifs with hD
  · obtain ⟨hm, hl⟩ := hv.quiescent x hD
    have hcore := hf.core_eq x
    unfold core at hcore
    unfold restored
    rw [Datapoint.mk.injEq] at hcore
    obtain ⟨e1, e2, -, -, e3, -, -⟩ := hcore
    rw [Datapoint.ext_iff]
    exact ⟨e1, e2, rfl, rfl, e3, hm.symm, hl.symm⟩
  · exact hf.other x fun hs => hs.elim hD hx

theorem mem_rollBackDatapoints_falseDatapoint (hv : ScopedInput m₀ D hcs P N)
    (hc : st.copyOfDatapoints = D.map fun x => ((m₀ x).classification, (m₀ x).isClassified)) :
    (rollBackDatapoints D st).mem .falseDatapoint = st.mem .falseDatapoint := by
  unfold rollBackDatapoints
  rw [hc]
  simp only [foldl_rollBackDatapoint]
  rw [if_neg hv.falseDatapoint_notMem]

theorem label_clearMembers_rollBack (hv : ScopedInput m₀ D hcs P N)
    (hc : st.copyOfDatapoints = D.map fun x => ((m₀ x).classification, (m₀ x).isClassified))
    (hl : st.label .falseDatapoint = some false) :
    (clearMembers (rollBackDatapoints D st)).label .falseDatapoint = some false := by
  have hlabel : (clearMembers (rollBackDatapoints D st)).label .falseDatapoint =
      (rollBackDatapoints D st).label .falseDatapoint := by
    simp [clearMembers, SolverState.label, label, Datapoint.label]
  rw [hlabel]
  unfold SolverState.label label
  rw [mem_rollBackDatapoints_falseDatapoint hv hc]
  exact hl

/-! ## The labels at the end of propagation -/

/-- The value of the internal false point does not matter. -/
theorem consistent_update (hv : ValidInput m₀ D hcs P N) (ν : Ptr → Bool) :
    Consistent m₀ D hcs P N (Function.update ν .falseDatapoint false) ↔
      Consistent m₀ D hcs P N ν := by
  have hD : ∀ x ∈ D, Function.update ν .falseDatapoint false x = ν x := fun x hx =>
    Function.update_of_ne (hv.ne_falseDatapoint hx) _ _
  unfold Consistent
  refine and_congr ?_ (and_congr ?_ (and_congr ?_ ?_))
  · exact forall₂_congr fun x hx => by rw [hD x hx]
  · exact forall₂_congr fun x hx => by rw [hD x (hv.positive x hx).1]
  · exact forall₂_congr fun x hx => by rw [hD x (hv.negative x hx).1]
  · refine forall₂_congr fun hc hhc => ?_
    unfold HornConstraint.Holds
    refine imp_congr (forall₂_congr fun p hp => by rw [hD p (hv.premises hc hhc p hp)]) ?_
    refine exists_congr fun c => and_congr_right fun hcc => ?_
    rw [hD c (hv.conclusion hc hhc c hcc)]

variable {Cons : (Ptr → Bool) → Prop}

/-- When the worklist is empty, all open points may be false. -/
theorem FalsePhase.exists_false (h : FalsePhase D m₀ Cons (fun _ _ => False) st) :
    ∃ ν : Ptr → Bool, ν .falseDatapoint = false ∧ Cons ν ∧
      ∀ x, st.label x ≠ some true → ν x = false := by
  obtain ⟨ν, hT, hnT, hF, hR⟩ := exists_valuation (R := st.Rules)
    (T := fun x => st.label x = some true) (F := fun x => st.label x = some false)
    (fun x ht hf => by rw [ht] at hf; simp at hf)
    (by
      intro r hr
      obtain ⟨k, hk, rfl⟩ := hr
      obtain ⟨p, ps, hps⟩ := List.exists_cons_of_ne_nil (h.nonempty k hk)
      have hp : p ∈ (st.clause k).premises := by rw [hps]; simp
      exact ⟨p, hp, fun ht => h.no_true p k hk ht (.inl hp)⟩)
  have hbot : ν .falseDatapoint = false := hF _ h.inv.falseLabel
  refine ⟨ν, hbot, (h.inv.models ν hbot).mpr ⟨fun x _ b hb => ?_, fun k hk => ?_⟩, hnT⟩
  · cases b with
    | true => exact hT x hb
    | false => exact hF x hb
  · exact hR _ ⟨k, hk, rfl⟩

/-- When the worklist is empty, each open point may be true. -/
theorem FalsePhase.exists_true (h : FalsePhase D m₀ Cons (fun _ _ => False) st)
    (hw : st.worklist = []) {x : Ptr} (hx : x ∈ D) (hl : st.label x = none) :
    ∃ ν : Ptr → Bool, ν .falseDatapoint = false ∧ Cons ν ∧ ν x = true := by
  obtain ⟨ν, hνx, hT, hF, hR⟩ := exists_valuation_true (R := st.Rules)
    (T := fun x => st.label x = some true) (F := fun x => st.label x = some false)
    (fun x ht hf => by rw [ht] at hf; simp at hf)
    (by
      intro r hr p hp ht
      obtain ⟨k, hk, rfl⟩ := hr
      exact h.no_true p k hk ht (.inl hp))
    (x := x) (by
      -- a false point that `x` derives would have falsified `x`
      intro f hf hd
      have hne : x ≠ f := by
        rintro rfl
        rw [hl] at hf
        simp at hf
      cases hd with
      | base e => exact hne e.symm
      | @rule r hr hprem =>
        obtain ⟨k, hk, rfl⟩ := hr
        rcases h.settled (st.rule k).conclusion k hk hf with hm | hp | hs
        · rw [hw] at hm
          simp at hm
        · exact hp
        · obtain ⟨hflag, hall⟩ := hs.2 rfl
          have hmarked : Marked D Cons st := by
            rcases h.marks with hm | hm
            · rw [hflag] at hm
              simp at hm
            · exact hm.2
          have hmem := hmarked.complete _ x hx (Derives.rule ⟨k, hk, rfl⟩ hprem)
          have := hall x hmem hne
          rw [hl] at this
          simp at this)
  have hbot : ν .falseDatapoint = false := hF _ h.inv.falseLabel
  refine ⟨ν, hbot, (h.inv.models ν hbot).mpr ⟨fun y _ b hb => ?_, fun k hk => ?_⟩, hνx⟩
  · cases b with
    | true => exact hT y hb
    | false => exact hF y hb
  · exact hR _ ⟨k, hk, rfl⟩

/-! ## The contract of `solve` -/

/-- The points entailed to be `b` that were not labelled. -/
def Entailed (m₀ : Heap) (D : List Ptr) (hcs : List HornConstraint) (P N : List Ptr) (b : Bool)
    (x : Ptr) : Prop :=
  x ∈ D ∧ label m₀ x = none ∧ ∀ ν, Consistent m₀ D hcs P N ν → ν x = b

/-- What a call of `solve` on the heap `m₀` returns. -/
structure Solved (m₀ : Heap) (D : List Ptr) (hcs : List HornConstraint) (P N : List Ptr)
    (ok : Bool) (st : SolverState) : Prop where
  satisfiable : ok = true ↔ ∃ ν, Consistent m₀ D hcs P N ν
  positive : ok = true → ∀ x, x ∈ st.positive ↔ Entailed m₀ D hcs P N true x
  negative : ok = true → ∀ x, x ∈ st.negative ↔ Entailed m₀ D hcs P N false x
  negative_of_false : ok = false → st.negative = N
  restored : ∀ x, x ≠ .falseDatapoint → st.mem x = m₀ x
  falseLabel : st.label .falseDatapoint = some false

theorem Refuted.solved (hv : ValidInput m₀ D hcs P N)
    (h : Refuted D m₀ (Consistent m₀ D hcs P N) N st) (b : Bool) :
    Solved m₀ D hcs P N false { clearMembers (rollBackDatapoints D st) with
      hornConstraintsSatisfiability := b } := by
  refine ⟨⟨by simp, fun ⟨ν, hν⟩ => ?_⟩, by simp, by simp, fun _ => h.negative_eq,
    fun x hx => mem_clearMembers_rollBack hv.scoped h.frame h.copies hx,
    label_clearMembers_rollBack hv.scoped h.copies h.falseLabel⟩
  exact absurd ((consistent_update hv ν).mpr hν) (h.unsatisfiable _ (Function.update_self ..))

theorem FalsePhase.solved (hv : ValidInput m₀ D hcs P N)
    (h : FalsePhase D m₀ (Consistent m₀ D hcs P N) (fun _ _ => False) st)
    (hw : st.worklist = []) (b : Bool) :
    Solved m₀ D hcs P N true { clearMembers (rollBackDatapoints D st) with
      hornConstraintsSatisfiability := b } := by
  -- the labels at the end are forced
  have hforced : ∀ x ∈ D, ∀ c, st.label x = some c → ∀ ν, Consistent m₀ D hcs P N ν →
      ν x = c := by
    intro x hx c hc ν hν
    have := h.inv.agrees (Function.update_self ..) ((consistent_update hv ν).mpr hν) (.inl hx) hc
    rwa [Function.update_of_ne (hv.ne_falseDatapoint hx)] at this
  obtain ⟨ν₀, -, hcons₀, hfalse₀⟩ := h.exists_false
  refine ⟨⟨fun _ => ⟨ν₀, hcons₀⟩, fun _ => rfl⟩, fun _ x => ?_, fun _ x => ?_, by simp,
    fun x hx => mem_clearMembers_rollBack hv.scoped h.inv.frame h.inv.copies hx,
    label_clearMembers_rollBack hv.scoped h.inv.copies h.inv.falseLabel⟩
  · show x ∈ st.positive ↔ _
    rw [h.inv.mem_positive]
    constructor
    · intro ⟨hD, hn, ht⟩
      exact ⟨hD, hn, hforced x hD true ht⟩
    · intro ⟨hD, hn, hall⟩
      refine ⟨hD, hn, ?_⟩
      by_contra hnt
      have := hfalse₀ x hnt
      rw [hall ν₀ hcons₀] at this
      simp at this
  · show x ∈ st.negative ↔ _
    rw [h.inv.mem_negative]
    constructor
    · intro ⟨hD, hn, hf⟩
      exact ⟨hD, hn, hforced x hD false hf⟩
    · intro ⟨hD, hn, hall⟩
      refine ⟨hD, hn, ?_⟩
      cases hl : st.label x with
      | none =>
        obtain ⟨ν, -, hcons, hνx⟩ := h.exists_true hw hD hl
        rw [hall ν hcons] at hνx
        simp at hνx
      | some c =>
        cases c with
        | false => rfl
        | true =>
          have := hforced x hD true hl ν₀ hcons₀
          rw [hall ν₀ hcons₀] at this
          simp at this

/-- The contract of a call of `solve`. -/
theorem solve_spec (ord : HashOrder) (hv : ValidInput st.mem D hcs P N) {fuel : ℕ}
    (hfuel : solveFuel D hcs P N ≤ fuel) :
    ∃ ok s, solve ord fuel D hcs P N st = some (ok, s) ∧ Solved st.mem D hcs P N ok s := by
  unfold solveFuel at hfuel
  unfold solve
  set s₀ := keepBackup ord D hcs (resetMembers P N st) with hs₀
  rcases keepBackup_spec ord hv with h | ⟨hsat, h⟩
  · simp only
    rw [if_neg (by rw [h.satisfiability]; simp)]
    have hwork := fillWorklist_workLeft ord hv h
    obtain ⟨r, s', hrun, hT, hF⟩ := verifyConstraintsSatisfiability_spec ord fuel
      (by omega) hv.falseDatapoint_notMem fuel _ (fillWorklist_truePhase ord hv h) (by omega)
    rw [hrun]
    refine ⟨r, _, rfl, ?_⟩
    cases r with
    | true =>
      obtain ⟨hphase, hw⟩ := hT rfl
      exact hphase.solved hv hw true
    | false => exact (hF rfl).solved hv false
  · simp only
    rw [if_pos hsat]
    exact ⟨false, _, rfl, h.solved hv _⟩

/-- `solve` terminates, and its answer is `true` iff a consistent labelling
    exists. -/
theorem solve_iff_satisfiable (ord : HashOrder) (D : List Ptr) (hcs : List HornConstraint)
    (P N : List Ptr) (st : SolverState) (hv : ValidInput st.mem D hcs P N) (fuel : ℕ)
    (hfuel : solveFuel D hcs P N ≤ fuel) :
    ∃ ok s, solve ord fuel D hcs P N st = some (ok, s) ∧
      (ok = true ↔ ∃ ν, Consistent st.mem D hcs P N ν) := by
  obtain ⟨ok, s, hrun, hs⟩ := solve_spec ord hv hfuel
  exact ⟨ok, s, hrun, hs.satisfiable⟩

/-- Whenever `solve` answers `true`, the sets that it leaves are the entailed
    labels. -/
theorem solve_entailed (ord : HashOrder) (D : List Ptr) (hcs : List HornConstraint)
    (P N : List Ptr) (st : SolverState) (hv : ValidInput st.mem D hcs P N) (fuel : ℕ)
    (hfuel : solveFuel D hcs P N ≤ fuel) (s : SolverState)
    (hrun : solve ord fuel D hcs P N st = some (true, s)) :
    (∀ x, x ∈ s.positive ↔ x ∈ D ∧ label st.mem x = none ∧
        ∀ ν, Consistent st.mem D hcs P N ν → ν x = true) ∧
      (∀ x, x ∈ s.negative ↔ x ∈ D ∧ label st.mem x = none ∧
        ∀ ν, Consistent st.mem D hcs P N ν → ν x = false) ∧
      .falseDatapoint ∉ s.positive ∧ .falseDatapoint ∉ s.negative := by
  obtain ⟨ok, s', hrun', hs⟩ := solve_spec ord hv hfuel
  rw [hrun] at hrun'
  obtain ⟨rfl, rfl⟩ := Prod.mk.inj (Option.some.inj hrun')
  refine ⟨hs.positive rfl, hs.negative rfl, ?_, ?_⟩
  · intro hx
    exact hv.falseDatapoint_notMem ((hs.positive rfl _).mp hx).1
  · intro hx
    exact hv.falseDatapoint_notMem ((hs.negative rfl _).mp hx).1

/-! ## A sample

Point 2 implies points 0 and 1, which exclude each other: no unit clause decides
anything, but point 2 is entailed to be false. -/

/-- Three unlabelled points. -/
def sampleState : SolverState := { mem := fun _ => {} }

/-- The points of the sample. -/
def samplePoints : List Ptr := [.point 0, .point 1, .point 2]

/-- `2 → 0`, `2 → 1` and `0 ∧ 1 → false`. -/
def sampleConstraints : List HornConstraint :=
  [⟨[.point 2], some (.point 0), false⟩, ⟨[.point 2], some (.point 1), false⟩,
    ⟨[.point 0, .point 1], none, false⟩]

theorem sample_validInput :
    ValidInput sampleState.mem samplePoints sampleConstraints [] [] := by
  constructor <;> simp [sampleState, samplePoints, sampleConstraints, label, Datapoint.label]

theorem sample_consistent :
    Consistent sampleState.mem samplePoints sampleConstraints [] [] fun _ => false := by
  simp [Consistent, sampleState, samplePoints, sampleConstraints, label, Datapoint.label,
    HornConstraint.Holds]

theorem solve_iff_satisfiable_sample :
    ∃ ok s, solve .stored (solveFuel samplePoints sampleConstraints [] []) samplePoints
        sampleConstraints [] [] sampleState = some (ok, s) ∧
      (ok = true ↔
        ∃ ν, Consistent sampleState.mem samplePoints sampleConstraints [] [] ν) :=
  solve_iff_satisfiable .stored samplePoints sampleConstraints [] [] sampleState
    sample_validInput _ (le_refl _)

theorem solve_entailed_sample :
    ∃ s, solve .stored (solveFuel samplePoints sampleConstraints [] []) samplePoints
        sampleConstraints [] [] sampleState = some (true, s) ∧ .point 2 ∈ s.negative := by
  obtain ⟨ok, s, hrun, hs⟩ := solve_spec .stored sample_validInput (le_refl _)
  have hok : ok = true := hs.satisfiable.mpr ⟨_, sample_consistent⟩
  rw [hok] at hrun
  refine ⟨s, hrun, ?_⟩
  rw [(solve_entailed .stored samplePoints sampleConstraints [] [] sampleState sample_validInput _
    (le_refl _) s hrun).2.1]
  refine ⟨by simp [samplePoints], rfl, fun ν hν => ?_⟩
  -- if point 2 were true, so would be points 0 and 1
  by_contra h2
  have h0 := hν.2.2.2 ⟨[.point 2], some (.point 0), false⟩ (by simp [sampleConstraints])
  have h1 := hν.2.2.2 ⟨[.point 2], some (.point 1), false⟩ (by simp [sampleConstraints])
  have hf := hν.2.2.2 ⟨[.point 0, .point 1], none, false⟩ (by simp [sampleConstraints])
  simp_all [HornConstraint.Holds]

end HiceDt.Solver
