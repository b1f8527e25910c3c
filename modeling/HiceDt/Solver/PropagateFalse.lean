import HiceDt.Solver.PropagateTrue

/-!
# Propagation of false labels

Once the true points are propagated no clause mentions a true point, and only
points labelled false are pushed: this phase cannot fail. A false conclusion
falsifies the points that mark it, and the markings, computed once, stay exact
enough: later clauses are only switched off, so they derive less.

Results:

* `propagateFalseClassification_spec`, `processVariable_false`: the loop body and
  an iteration keep `FalsePhase`.
* `verifyConstraintsSatisfiability_spec`: with enough fuel the loop returns; if
  it answers `false` there is no consistent labelling, if it answers `true` the
  worklist is empty in the `FalsePhase`.
-/

namespace HiceDt.Solver

open HiceDt Horn SolverState

variable {D : List Ptr} {m₀ : Heap} {Cons : (Ptr → Bool) → Prop} {st st' : SolverState}

/-! ## The phase of the false points -/

/-- The markings are computed: `m` marks `v` only if `v` is true in every
    consistent labelling that makes `m` true, and whenever the live clauses
    derive `v` from `m`. -/
structure Marked (D : List Ptr) (Cons : (Ptr → Bool) → Prop) (st : SolverState) : Prop where
  mem : ∀ v, ∀ m ∈ st.marking v, m ∈ D
  not_true : ∀ v, ∀ m ∈ st.marking v, m ≠ v → st.label m ≠ some true
  sound : ∀ v, ∀ m ∈ st.marking v, ∀ ν : Ptr → Bool, ν .falseDatapoint = false → Cons ν →
    ν m = true → ν v = true
  complete : ∀ v m, m ∈ D → Derives st.Rules (· = m) v → m ∈ st.marking v

/-- The false point `x` has nothing left to do at clause `k`. -/
def Settled (st : SolverState) (x : Ptr) (k : ℕ) : Prop :=
  x ∉ (st.clause k).premises ∧ ((st.clause k).conclusion = x →
    st.computeCurrentMarking = false ∧ ∀ m ∈ st.marking x, m ≠ x → st.label m = some false)

/-- The invariant once all points labelled true are propagated. -/
structure FalsePhase (D : List Ptr) (m₀ : Heap) (Cons : (Ptr → Bool) → Prop)
    (pending : Ptr → ℕ → Prop) (st : SolverState) : Prop where
  inv : Inv D m₀ Cons st
  nonempty : ∀ k, st.Live k → (st.clause k).premises ≠ []
  scope : ∀ x ∈ st.worklist, InScope D x
  worklist : ∀ x ∈ st.worklist, st.label x = some false
  no_true : ∀ x k, st.Live k → st.label x = some true → ¬ Occurs st x k
  marks : st.computeCurrentMarking = true ∧ SelfMarked D st ∨
    st.computeCurrentMarking = false ∧ Marked D Cons st
  settled : ∀ x k, st.Live k → st.label x = some false →
    x ∈ st.worklist ∨ pending x k ∨ Settled st x k

theorem TruePhase.falsePhase {N : List Ptr} (h : TruePhase D m₀ Cons N (fun _ _ => False) st)
    (hw : ∀ x ∈ st.worklist, st.label x = some false) :
    FalsePhase D m₀ Cons (fun _ _ => False) st := by
  refine ⟨h.inv, h.nonempty, h.scope, hw, ?_, .inl ⟨h.flag, h.selfMarked⟩, ?_⟩
  · intro x k hk hx
    rcases h.true_settled x k hk hx with hmem | hf | hno
    · have := hw x hmem
      rw [hx] at this
      simp at this
    · exact hf.elim
    · exact hno
  · intro x k hk hx
    rcases h.false_settled x k hk hx with hmem | hno
    · exact .inl hmem
    · refine .inr (.inr ⟨fun hp => hno (.inl hp), fun hc => absurd (.inr hc) hno⟩)

/-- A step that pushes the newly false points `new` and switches off clauses. -/
theorem FalsePhase.step {pending pending' : Ptr → ℕ → Prop}
    (h : FalsePhase D m₀ Cons pending st) (new : List Ptr) (hinv : Inv D m₀ Cons st')
    (hflag : st'.computeCurrentMarking = st.computeCurrentMarking)
    (hmark : ∀ x, st'.marking x = st.marking x)
    (hlive : ∀ j, st'.Live j → st.Live j)
    (hclause : ∀ j, st'.Live j → st'.clause j = st.clause j)
    (htrue : ∀ y, st'.label y = some true ↔ st.label y = some true)
    (hfalse : ∀ y, st'.label y = some false ↔ st.label y = some false ∨ y ∈ new)
    (hwork : st'.worklist = new ++ st.worklist) (hscope : ∀ y ∈ new, InScope D y)
    (hpend : ∀ y j, st'.Live j → pending y j → pending' y j ∨ Settled st' y j) :
    FalsePhase D m₀ Cons pending' st' := by
  have hsettled : ∀ y j, st'.Live j → Settled st y j → Settled st' y j := by
    intro y j hj hs
    unfold Settled at hs ⊢
    rw [hclause j hj, hflag, hmark]
    refine ⟨hs.1, fun hc => ⟨(hs.2 hc).1, fun m hm hne => ?_⟩⟩
    exact (hfalse m).mpr (.inl ((hs.2 hc).2 m hm hne))
  refine ⟨hinv, ?_, ?_, ?_, ?_, ?_, ?_⟩
  · intro j hj
    rw [hclause j hj]
    exact h.nonempty j (hlive j hj)
  · intro x hx
    rw [hwork] at hx
    rcases List.mem_append.mp hx with hx | hx
    · exact hscope x hx
    · exact h.scope x hx
  · intro x hx
    rw [hwork] at hx
    rcases List.mem_append.mp hx with hx | hx
    · exact (hfalse x).mpr (.inr hx)
    · exact (hfalse x).mpr (.inl (h.worklist x hx))
  · intro x j hj hx ho
    unfold Occurs at ho
    rw [hclause j hj] at ho
    exact h.no_true x j (hlive j hj) ((htrue x).mp hx) ho
  · rw [hflag]
    refine h.marks.imp (fun hs => ⟨hs.1, ?_⟩) (fun hm => ⟨hm.1, ?_⟩)
    · unfold SelfMarked
      simp only [hmark]
      exact hs.2
    · obtain ⟨h1, h2, h3, h4⟩ := hm.2
      refine ⟨?_, ?_, ?_, ?_⟩ <;> simp only [hmark]
      · exact h1
      · intro v m hmv hne hl
        exact h2 v m hmv hne ((htrue m).mp hl)
      · exact h3
      · intro v m hmD hd
        refine h4 v m hmD (hd.mono ?_ fun _ e => e)
        intro r hr
        obtain ⟨j, hj, rfl⟩ := hr
        refine ⟨j, hlive j hj, ?_⟩
        unfold rule
        rw [hclause j hj]
  · intro x j hj hx
    rcases (hfalse x).mp hx with hx | hx
    · rcases h.settled x j (hlive j hj) hx with hmem | hp | hs
      · exact .inl (by rw [hwork]; exact List.mem_append_right _ hmem)
      · exact .inr (hpend x j hj hp)
      · exact .inr (.inr (hsettled x j hj hs))
    · exact .inl (by rw [hwork]; exact List.mem_append_left _ hx)

/-- A step that changes neither clauses nor labels nor the worklist. -/
theorem FalsePhase.pass {pending pending' : Ptr → ℕ → Prop}
    (h : FalsePhase D m₀ Cons pending st) (hinv : Inv D m₀ Cons st')
    (hflag : st'.computeCurrentMarking = st.computeCurrentMarking)
    (hmark : ∀ x, st'.marking x = st.marking x)
    (hclause : ∀ j, st'.clause j = st.clause j) (hlabel : ∀ y, st'.label y = st.label y)
    (hwork : st'.worklist = st.worklist)
    (hpend : ∀ y j, st'.Live j → pending y j → pending' y j ∨ Settled st' y j) :
    FalsePhase D m₀ Cons pending' st' := by
  refine h.step [] hinv hflag hmark ?_ (fun j _ => hclause j)
    (fun y => by rw [hlabel]) (fun y => by simp [hlabel]) hwork (by simp) hpend
  intro j hj
  unfold Live at hj ⊢
  rwa [hclause] at hj

/-- A step that only changes what is pending. -/
theorem FalsePhase.weaken {pending pending' : Ptr → ℕ → Prop}
    (h : FalsePhase D m₀ Cons pending st)
    (hpend : ∀ y j, st.Live j → pending y j → pending' y j ∨ Settled st y j) :
    FalsePhase D m₀ Cons pending' st :=
  h.pass h.inv rfl (fun _ => rfl) (fun _ => rfl) (fun _ => rfl) rfl hpend

/-! ### Markings -/

theorem FalsePhase.markable {pending : Ptr → ℕ → Prop} (h : FalsePhase D m₀ Cons pending st) :
    Markable D st := by
  intro k hk
  have hwf := h.inv.wellFormed k hk
  exact ⟨h.nonempty k hk, fun p hp => ⟨(hwf.premise p hp).1, (hwf.premise p hp).2.2⟩,
    hwf.conclusion_scope⟩

/-- `compute_current_marking`, called at most once, establishes `Marked`. -/
theorem FalsePhase.mark {pending : Ptr → ℕ → Prop} (ord : HashOrder) {fuel : ℕ}
    (h : FalsePhase D m₀ Cons pending st) (hfuel : D.length * (D.length + 1) < fuel)
    (hflag : st.computeCurrentMarking = true) :
    ∃ M n, computeCurrentMarking ord fuel st = some (st.setMarkings M n) ∧
      FalsePhase D m₀ Cons pending
        { st.setMarkings M n with computeCurrentMarking := false } := by
  have hself : SelfMarked D st := by
    rcases h.marks with hs | hm
    · exact hs.2
    · rw [hflag] at hm
      simp at hm
  obtain ⟨M, n, hrun, hM⟩ := computeCurrentMarking_exact ord h.markable hself hfuel
  refine ⟨M, n, hrun, ?_⟩
  have hout : ∀ x, ¬ InScope D x → M x = st.marking x := by
    intro x hx
    rw [hself.2 x fun hD => hx (.inl hD), List.eq_nil_iff_forall_not_mem]
    intro m hm
    obtain ⟨hmD, hd⟩ := (hM m x).mp hm
    cases hd with
    | base e =>
      have e' : x = m := e
      exact hx (.inl (e' ▸ hmD))
    | rule hr _ =>
      obtain ⟨k, hk, rfl⟩ := hr
      exact hx (h.inv.wellFormed k hk).conclusion_scope
  have hinv : Inv D m₀ Cons { st.setMarkings M n with computeCurrentMarking := false } :=
    (h.inv.setMarkings hout n).congr (fun _ => rfl) (fun _ => rfl) (fun _ _ _ hk => hk) rfl rfl
      rfl (h.inv.setMarkings hout n).frame
  refine ⟨hinv, h.nonempty, h.scope, h.worklist, h.no_true, .inr ⟨rfl, ?_⟩, ?_⟩
  · refine ⟨fun v m hm => ((hM m v).mp hm).1, ?_, ?_, fun v m hmD hd => (hM m v).mpr ⟨hmD, hd⟩⟩
    · -- a true point is mentioned by no live clause, so it derives itself only
      intro v m hm hne hl
      have hne' : ∀ r, st.Rules r → r.premises ≠ [] := by
        intro r hr
        obtain ⟨k, hk, rfl⟩ := hr
        exact h.nonempty k hk
      rcases ((hM m v).mp hm).2.eq_or_premise hne' with e | ⟨r, hr, hmr⟩
      · exact hne e.symm
      · obtain ⟨k, hk, rfl⟩ := hr
        exact h.no_true m k hk hl (.inl hmr)
    · intro v m hm ν hν hc hνm
      refine ((hM m v).mp hm).2.true_of_holds ?_ (fun x (e : x = m) => e ▸ hνm)
      intro r hr
      obtain ⟨k, hk, rfl⟩ := hr
      exact h.inv.holds hν hc hk
  · intro x k hk hx
    rcases h.settled x k hk hx with hw | hp | hs
    · exact .inl hw
    · exact .inr (.inl hp)
    · refine .inr (.inr ⟨hs.1, fun hc => ?_⟩)
      have := (hs.2 hc).1
      rw [hflag] at this
      simp at this

/-- The test of the marking loop. -/
theorem label_eq_false_iff {m : Ptr} : st.label m = some false ↔
    ¬ ((st.mem m).isClassified = false ∨ (st.mem m).classification = true) := by
  unfold SolverState.label HiceDt.label Datapoint.label
  cases (st.mem m).isClassified <;> cases (st.mem m).classification <;> simp

/-- An unlabelled point that marks the false point `x` may become false. -/
theorem FalsePhase.falsify {pending : Ptr → ℕ → Prop} {x m : Ptr}
    (h : FalsePhase D m₀ Cons pending st) (hmarked : Marked D Cons st)
    (hx : st.label x = some false) (hxs : InScope D x) (hm : m ∈ st.marking x)
    (hbot : .falseDatapoint ∉ D) (hnone : st.label m = none) :
    FalsePhase D m₀ Cons pending (st.assign m false) := by
  have hmD := hmarked.mem x m hm
  have hlab : st.label m ≠ some !false := by rw [hnone]; simp
  have hl := label_assign hlab
  have hgiven : label m₀ m = none := by
    cases hg : label m₀ m with
    | none => rfl
    | some b =>
      have := h.inv.keeps m hmD b hg
      rw [hnone] at this
      simp at this
  refine h.step [m] (h.inv.assign hmD ?_ hgiven hlab ?_)
    (computeCurrentMarking_assign ..) (fun y => marking_assign ..)
    (fun j => (live_assign ..).mp) (fun j _ => clause_assign ..) ?_ ?_ (worklist_assign ..) ?_
    (fun _ _ _ hp => .inl hp)
  · intro e
    exact hbot (e ▸ hmD)
  · intro ν hν hc
    by_contra hνm
    have hνx := hmarked.sound x m hm ν hν hc (by simpa using hνm)
    rw [h.inv.agrees hν hc hxs hx] at hνx
    simp at hνx
  · intro y
    rw [hl]
    split_ifs with hy
    · rw [hy, hnone]; simp
    · rfl
  · intro y
    rw [hl, List.mem_singleton]
    split_ifs with hy
    · simp [hy]
    · simp [hy]
  · intro y hy
    rw [List.mem_singleton.mp hy]
    exact .inl hmD

/-- The body of the marking loop: it never fails, and afterwards `m` is false. -/
theorem falsifyMarking_spec {pending : Ptr → ℕ → Prop} {x m : Ptr}
    (h : FalsePhase D m₀ Cons pending st) (hflag : st.computeCurrentMarking = false)
    (hx : st.label x = some false) (hxs : InScope D x) (hm : m ∈ st.marking x)
    (hbot : .falseDatapoint ∉ D) :
    ∃ s', falsifyMarking x m st = some (true, s') ∧ FalsePhase D m₀ Cons pending s' ∧
      Visited D x false st s' ∧ s'.computeCurrentMarking = false ∧
      (∀ y, s'.marking y = st.marking y) ∧ (∀ j, s'.clause j = st.clause j) ∧
      (m ≠ x → s'.label m = some false) ∧
      ∀ y, st.label y = some false → s'.label y = some false := by
  have hmarked : Marked D Cons st := by
    rcases h.marks with hs | hs
    · rw [hflag] at hs
      simp at hs
    · exact hs.2
  unfold falsifyMarking
  by_cases hcond : m ≠ x ∧ ((st.mem m).isClassified = false ∨ (st.mem m).classification = true)
  · have hnf : st.label m ≠ some false := fun hf => label_eq_false_iff.mp hf hcond.2
    have hnt := hmarked.not_true x m hm hcond.1
    have hnone : st.label m = none := by
      cases hl : st.label m with
      | none => rfl
      | some b =>
        cases b with
        | true => exact absurd hl hnt
        | false => exact absurd hl hnf
    have hlab : st.label m ≠ some !false := by rw [hnone]; simp
    have hl := label_assign hlab
    have hfalse : ∀ y, st.label y = some false → (st.assign m false).label y = some false := by
      intro y hy
      rw [hl]
      split_ifs
      · rfl
      · exact hy
    refine ⟨st.assign m false, ?_, h.falsify hmarked hx hxs hm hbot hnone, ⟨hfalse x hx, ?_, ?_⟩,
      ?_, fun y => marking_assign .., fun j => clause_assign .., ?_, hfalse⟩
    · have hok : (st.classify m false).hornConstraintsSatisfiability = true :=
        classify_satisfiability.mpr hlab
      simp only
      rw [if_pos hcond, if_pos hok]
      rfl
    · exact fun y => clausesOf_assign ..
    · have h1 := unlabelled_assign_lt (b := false) (hmarked.mem x m hm) hnone
      unfold workLeft
      rw [worklist_assign, liveCount_assign, List.length_cons]
      omega
    · rw [computeCurrentMarking_assign]; exact hflag
    · intro _
      rw [hl, if_pos rfl]
  · refine ⟨st, by rw [if_neg hcond], h, ⟨hx, fun _ => rfl, le_refl _⟩, hflag, fun _ => rfl,
      fun _ => rfl, fun hne => ?_, fun _ hy => hy⟩
    exact label_eq_false_iff.mpr fun e => hcond ⟨hne, e⟩

/-! ### One clause -/

theorem propagateFalseClassification_eq (ord : HashOrder) (fuel : ℕ) (x : Ptr) (k : ℕ)
    (st : SolverState) :
    propagateFalseClassification ord fuel x k st =
      if x ∈ (st.clause k).premises then some (true, st.satisfy k)
      else if (st.clause k).conclusion = x then
        if (st.clause k).sizeOfPremises = 1 then
          if (st.classify ((st.clause k).premises.headD .falseDatapoint)
              false).hornConstraintsSatisfiability = true then
            some (true, (st.assign ((st.clause k).premises.headD .falseDatapoint) false).satisfy k)
          else some (false, st.classify ((st.clause k).premises.headD .falseDatapoint) false)
        else
          match (if st.computeCurrentMarking = true then
              (Solver.computeCurrentMarking ord fuel st).map
                fun s => { s with computeCurrentMarking := false }
            else some st) with
          | none => none
          | some s =>
            Loop.forEach (falsifyMarking x) (ord.points s.clock (s.marking x)) s.tick
      else some (true, st) := rfl

/-- The loop over the points that mark `x`. -/
theorem forEach_falsifyMarking {pending : Ptr → ℕ → Prop} (ord : HashOrder) {x : Ptr}
    (h : FalsePhase D m₀ Cons pending st) (hflag : st.computeCurrentMarking = false)
    (hx : st.label x = some false) (hxs : InScope D x) (hbot : .falseDatapoint ∉ D) :
    ∃ s', Loop.forEach (falsifyMarking x) (ord.points st.clock (st.marking x)) st.tick =
        some (true, s') ∧ FalsePhase D m₀ Cons pending s' ∧ Visited D x false st s' ∧
      s'.computeCurrentMarking = false ∧ (∀ j, s'.clause j = st.clause j) ∧
      ∀ m ∈ s'.marking x, m ≠ x → s'.label m = some false := by
  obtain ⟨r, s', hrun, hT, hF⟩ := Loop.forEach_spec (f := falsifyMarking x)
    (l := ord.points st.clock (st.marking x))
    (I := fun done s => FalsePhase D m₀ Cons pending s ∧ Visited D x false st s ∧
      s.computeCurrentMarking = false ∧ (∀ y, s.marking y = st.marking y) ∧
      (∀ j, s.clause j = st.clause j) ∧ ∀ m ∈ done, m ≠ x → s.label m = some false)
    (Q := fun _ => False) (s := st.tick) (by
      intro done m rest s hl hI
      obtain ⟨hphase, hvis, hflag', hmark, hclause, hdone⟩ := hI
      have hm : m ∈ s.marking x := by
        rw [hmark]
        have : m ∈ ord.points st.clock (st.marking x) := by rw [hl]; simp
        simpa using this
      obtain ⟨s', hrun, hphase', hvis', hflag'', hmark', hclause', hself, hkeep⟩ :=
        falsifyMarking_spec hphase hflag' hvis.label hxs hm hbot
      refine ⟨true, s', hrun, fun _ => ⟨hphase', ⟨hvis'.label,
        fun y => (hvis'.clausesOf y).trans (hvis.clausesOf y), hvis'.work.trans hvis.work⟩,
        hflag'', fun y => (hmark' y).trans (hmark y), fun j => (hclause' j).trans (hclause j), ?_⟩,
        by simp⟩
      intro m' hm' hne
      rcases List.mem_append.mp hm' with hm' | hm'
      · exact hkeep m' (hdone m' hm' hne)
      · rw [List.mem_singleton.mp hm'] at hne ⊢
        exact hself hne)
    ⟨h.pass h.inv.tick rfl (fun _ => rfl) (fun _ => rfl) (fun _ => rfl) rfl
        (fun _ _ _ hp => .inl hp), ⟨hx, fun _ => rfl, le_refl _⟩, hflag, fun _ => rfl,
      fun _ => rfl, by simp⟩
  cases r with
  | false => exact (hF rfl).elim
  | true =>
    obtain ⟨hphase, hvis, hflag', hmark, hclause, hdone⟩ := hT rfl
    refine ⟨s', hrun, hphase, hvis, hflag', hclause, fun m hm hne => hdone m ?_ hne⟩
    rw [hmark] at hm
    simpa using hm

section Visit

variable {pending : Ptr → ℕ → Prop} {x : Ptr} {k : ℕ}

/-- A premise is false: the clause is satisfied. -/
theorem FalsePhase.satisfied (h : FalsePhase D m₀ Cons pending st) (hk : st.Live k)
    (hx : st.label x = some false) (hprem : x ∈ (st.clause k).premises) :
    FalsePhase D m₀ Cons (fun y j => pending y j ∧ ¬ (y = x ∧ j = k)) (st.satisfy k) ∧
      Visited D x false st (st.satisfy k) := by
  refine ⟨?_, hx, fun _ => rfl, ?_⟩
  · refine h.step [] (h.inv.satisfy ?_) rfl (fun _ => rfl)
      (fun j hj => (live_satisfy.mp hj).2) (fun j hj => clause_satisfy_of_live hj)
      (fun _ => Iff.rfl) (fun y => by simp [SolverState.label, SolverState.satisfy,
        SolverState.setClause]) rfl (by simp) ?_
    · intro ν _ ha hp
      have hνx := hp x hprem
      rw [ha x ((h.inv.wellFormed k hk).premise x hprem).1 false hx] at hνx
      cases hνx
    · intro y j hj hp
      exact .inl ⟨hp, fun e => (live_satisfy.mp hj).1 e.2⟩
  · have := workLeft_satisfy (D := D) hk
    omega

/-- The only premise of a live clause with a false conclusion is false in every labelling. -/
theorem Inv.premise_false (h : Inv D m₀ Cons st) (hk : st.Live k)
    (hx : st.label x = some false) (hconcl : (st.clause k).conclusion = x) {p : Ptr}
    (hps : (st.clause k).premises = [p]) {ν : Ptr → Bool} (hν : ν .falseDatapoint = false)
    (hc : Cons ν) : ν p = false := by
  by_contra hνp
  have hνx : ν x = true := by
    rw [← hconcl]
    refine h.holds hν hc hk fun q hq => ?_
    have hq' : q ∈ [p] := by
      rw [← hps]
      exact hq
    rw [List.mem_singleton.mp hq']
    simpa using hνp
  rw [h.agrees hν hc (h.scope hk (.inr hconcl)) hx] at hνx
  cases hνx

/-- The conclusion is false and `p` is the only premise: `p` is labelled false, and the clause
    is satisfied. -/
theorem FalsePhase.derives (h : FalsePhase D m₀ Cons pending st) (hk : st.Live k)
    (hx : st.label x = some false) (hconcl : (st.clause k).conclusion = x) {p : Ptr}
    (hps : (st.clause k).premises = [p]) (hbot : .falseDatapoint ∉ D) :
    FalsePhase D m₀ Cons (fun y j => pending y j ∧ ¬ (y = x ∧ j = k))
        ((st.assign p false).satisfy k) ∧
      Visited D x false st ((st.assign p false).satisfy k) := by
  have hp : p ∈ (st.clause k).premises := by
    rw [hps]
    exact List.mem_singleton_self p
  obtain ⟨hpD, hgiven, -⟩ := (h.inv.wellFormed k hk).premise p hp
  have hlab : st.label p ≠ some !false := fun e => h.no_true p k hk e (.inl hp)
  have hl := label_assign hlab
  have hk₂ : (st.assign p false).Live k := (live_assign ..).mpr hk
  have hinv₂ : Inv D m₀ Cons (st.assign p false) :=
    h.inv.assign hpD (fun e => hbot (e ▸ hpD)) hgiven hlab
      fun ν => h.inv.premise_false hk hx hconcl hps
  refine ⟨?_, ?_, fun y => clausesOf_assign st y p false, ?_⟩
  · refine h.step [p] (hinv₂.satisfy ?_) (computeCurrentMarking_assign ..)
      (fun y => marking_assign st y p false)
      (fun j hj => (live_assign ..).mp (live_satisfy.mp hj).2) ?_ ?_ ?_ (worklist_assign ..) ?_ ?_
    · intro ν _ ha hall
      have hνp : ν p = true := by
        apply hall
        show p ∈ ((st.assign p false).clause k).premises
        rw [clause_assign]
        exact hp
      rw [ha p hpD false (by rw [hl, if_pos rfl])] at hνp
      cases hνp
    · intro j hj
      rw [clause_satisfy_of_live hj, clause_assign]
    · intro y
      show (st.assign p false).label y = some true ↔ _
      rw [hl]
      split_ifs with hy
      · rw [hy]
        exact ⟨fun e => (by cases e), fun e => absurd e hlab⟩
      · rfl
    · intro y
      show (st.assign p false).label y = some false ↔ _
      rw [hl, List.mem_singleton]
      split_ifs with hy
      · simp [hy]
      · simp [hy]
    · intro y hy
      rw [List.mem_singleton.mp hy]
      exact .inl hpD
    · intro y j hj hp
      exact .inl ⟨hp, fun e => (live_satisfy.mp hj).1 e.2⟩
  · show (st.assign p false).label x = some false
    rw [hl]
    split_ifs
    · rfl
    · exact hx
  · have h1 := workLeft_satisfy (D := D) hk₂
    have h2 : unlabelled D (st.assign p false) ≤ unlabelled D st := unlabelled_assign_le hlab
    unfold workLeft at h1 ⊢
    rw [worklist_assign, liveCount_assign, List.length_cons] at h1
    omega

/-- The markings are computed if they were not. -/
theorem FalsePhase.marks_computed (ord : HashOrder) {fuel : ℕ}
    (h : FalsePhase D m₀ Cons pending st) (hx : st.label x = some false)
    (hfuel : D.length * (D.length + 1) < fuel) :
    ∃ s₁, (if st.computeCurrentMarking = true then
        (Solver.computeCurrentMarking ord fuel st).map
          fun s => { s with computeCurrentMarking := false }
      else some st) = some s₁ ∧ FalsePhase D m₀ Cons pending s₁ ∧
      s₁.computeCurrentMarking = false ∧ Visited D x false st s₁ ∧
      ∀ j, s₁.clause j = st.clause j := by
  by_cases hflag : st.computeCurrentMarking = true
  · obtain ⟨M, n, hrun, hphase⟩ := h.mark ord hfuel hflag
    rw [if_pos hflag, hrun]
    exact ⟨_, rfl, hphase, rfl, ⟨hx, fun _ => rfl, le_refl _⟩, fun _ => rfl⟩
  · rw [if_neg hflag]
    exact ⟨st, rfl, h, by simpa using hflag, ⟨hx, fun _ => rfl, le_refl _⟩, fun _ => rfl⟩

/-- Nothing is left to do for the point at the clause. -/
theorem FalsePhase.settles {st₁ : SolverState} (h : FalsePhase D m₀ Cons pending st₁)
    (hsettled : Settled st₁ x k) :
    FalsePhase D m₀ Cons (fun y j => pending y j ∧ ¬ (y = x ∧ j = k)) st₁ := by
  refine h.weaken fun y j _ hp => ?_
  by_cases e : y = x ∧ j = k
  · obtain ⟨rfl, rfl⟩ := e
    exact .inr hsettled
  · exact .inl ⟨hp, e⟩

/-- `propagate_false_classification` on a live clause. -/
theorem propagateFalseClassification_spec (ord : HashOrder) {fuel : ℕ}
    (h : FalsePhase D m₀ Cons pending st) (hk : st.Live k) (hx : st.label x = some false)
    (hfuel : D.length * (D.length + 1) < fuel) (hbot : .falseDatapoint ∉ D) :
    ∃ s', propagateFalseClassification ord fuel x k st = some (true, s') ∧
      FalsePhase D m₀ Cons (fun y j => pending y j ∧ ¬ (y = x ∧ j = k)) s' ∧
      Visited D x false st s' := by
  rw [propagateFalseClassification_eq]
  by_cases hprem : x ∈ (st.clause k).premises
  · rw [if_pos hprem]
    exact ⟨_, rfl, h.satisfied hk hx hprem⟩
  rw [if_neg hprem]
  by_cases hconcl : (st.clause k).conclusion = x
  swap
  · -- the clause does not mention the point
    rw [if_neg hconcl]
    exact ⟨st, rfl, h.settles ⟨hprem, fun hc => absurd hc hconcl⟩, hx, fun _ => rfl, le_refl _⟩
  rw [if_pos hconcl]
  by_cases hsize : (st.clause k).sizeOfPremises = 1
  · rw [if_pos hsize]
    obtain ⟨p, hps⟩ : ∃ p, (st.clause k).premises = [p] := by
      rw [(h.inv.wellFormed k hk).size] at hsize
      exact List.length_eq_one_iff.mp hsize
    have hp : p ∈ (st.clause k).premises := by
      rw [hps]
      exact List.mem_singleton_self p
    have hlab : st.label p ≠ some !false := fun e => h.no_true p k hk e (.inl hp)
    rw [show (st.clause k).premises.headD .falseDatapoint = p by rw [hps]; rfl,
      if_pos (classify_satisfiability.mpr hlab)]
    exact ⟨_, rfl, h.derives hk hx hconcl hps hbot⟩
  · -- the points that mark the conclusion are false
    rw [if_neg hsize]
    obtain ⟨s₁, hs₁, hphase₁, hflag₁, hvis₁, hclause₁⟩ := h.marks_computed ord hx hfuel
    rw [hs₁]
    obtain ⟨s', hrun, hphase, hvis, hflag', hclause, hall⟩ :=
      forEach_falsifyMarking ord hphase₁ hflag₁ hvis₁.label (h.inv.scope hk (.inr hconcl)) hbot
    refine ⟨s', hrun, hphase.settles ⟨?_, fun _ => ⟨hflag', hall⟩⟩, hvis.label,
      fun y => (hvis.clausesOf y).trans (hvis₁.clausesOf y), hvis.work.trans hvis₁.work⟩
    rw [hclause, hclause₁]
    exact hprem

end Visit

/-! ### The loop -/

theorem processVariable_false (ord : HashOrder) {fuel : ℕ} {x : Ptr}
    (h : FalsePhase D m₀ Cons (fun y _ => y = x) st) (hscope : InScope D x)
    (hx : st.label x = some false) (hfuel : D.length * (D.length + 1) < fuel)
    (hbot : .falseDatapoint ∉ D) :
    ∃ s', processVariable ord fuel x st = some (true, s') ∧
      FalsePhase D m₀ Cons (fun _ _ => False) s' ∧ workLeft D s' ≤ workLeft D st := by
  have hsettled : ∀ {s : SolverState} {j : ℕ}, ¬ Occurs s x j → Settled s x j := by
    intro s j hno
    exact ⟨fun hp => hno (.inl hp), fun hc => absurd (.inr hc) hno⟩
  rw [processVariable_eq ord fuel hx]
  by_cases hempty : (st.clausesOf x).isEmpty = true
  · rw [if_pos hempty]
    refine ⟨st, rfl, h.weaken ?_, le_refl _⟩
    intro y j hj hy
    rw [show y = x from hy]
    refine .inr (hsettled (h.inv.not_occurs hj ?_))
    rw [List.isEmpty_iff.mp hempty]
    simp
  · rw [if_neg hempty, if_neg (by simp)]
    set kept := keptClauses ord st x with hkept
    have hstart : FalsePhase D m₀ Cons (fun y _ => y = x) (relist st x kept) :=
      h.pass (h.inv.relist hscope fun k hk hl => mem_keptClauses ord hk hl) rfl
        (fun y => marking_relist x y kept) (fun _ => rfl) (fun y => label_relist x y kept) rfl
        (fun _ _ _ hp => .inl hp)
    obtain ⟨r, s', hrun, hT, hF⟩ := Loop.forEach_spec
      (f := unlessSatisfied (propagateFalseClassification ord fuel x))
      (l := ord.clauses (st.clock + 1) kept)
      (I := fun done s => FalsePhase D m₀ Cons (fun y j => y = x ∧ j ∉ done) s ∧
        Visited D x false (relist st x kept) s)
      (Q := fun _ => False) (s := relist st x kept) (by
        intro done k rest s _ hI
        obtain ⟨hphase, hvis⟩ := hI
        unfold unlessSatisfied
        by_cases hk : (s.clause k).satisfiable = false
        · rw [if_pos hk]
          obtain ⟨s', hrun, hphase', hvis'⟩ :=
            propagateFalseClassification_spec ord hphase hk hvis.label hfuel hbot
          refine ⟨true, s', hrun, fun _ => ⟨hphase'.weaken ?_, hvis'.label,
            fun y => (hvis'.clausesOf y).trans (hvis.clausesOf y), hvis'.work.trans hvis.work⟩,
            by simp⟩
          intro y j _ hp
          obtain ⟨⟨hy, hj⟩, hne⟩ := hp
          refine .inl ⟨hy, fun hmem => ?_⟩
          rcases List.mem_append.mp hmem with hmem | hmem
          · exact hj hmem
          · exact hne ⟨hy, List.mem_singleton.mp hmem⟩
        · rw [if_neg hk]
          refine ⟨true, s, rfl, fun _ => ⟨hphase.weaken ?_, hvis⟩, by simp⟩
          intro y j hj hp
          refine .inl ⟨hp.1, fun hmem => ?_⟩
          rcases List.mem_append.mp hmem with hmem | hmem
          · exact hp.2 hmem
          · rw [List.mem_singleton.mp hmem] at hj
            exact hk hj)
      ⟨hstart.weaken fun y j _ hp => .inl ⟨hp, by simp⟩, (label_relist x x kept).trans hx,
        fun _ => rfl, le_refl _⟩
    cases r with
    | false => exact (hF rfl).elim
    | true =>
      obtain ⟨hphase, hvis⟩ := hT rfl
      refine ⟨s', hrun, hphase.weaken ?_, hvis.work.trans (workLeft_relist x kept).le⟩
      intro y j hj hp
      obtain ⟨rfl, hjl⟩ := hp
      refine .inr (hsettled (hphase.inv.not_occurs hj ?_))
      rw [hvis.clausesOf, clausesOf_relist, if_pos rfl]
      rwa [HashOrder.mem_clauses] at hjl

theorem workLeft_pop {x : Ptr} {rest : List Ptr} (h : st.worklist = x :: rest) :
    workLeft D { st with worklist := rest } + 1 = workLeft D st := by
  have h1 : SolverState.liveCount { st with worklist := rest } = st.liveCount := rfl
  have h2 : unlabelled D { st with worklist := rest } = unlabelled D st := rfl
  unfold workLeft
  rw [h1, h2, h, List.length_cons]
  show rest.length + _ + _ + 1 = _
  omega

theorem Inv.pop (h : Inv D m₀ Cons st) (rest : List Ptr) :
    Inv D m₀ Cons { st with worklist := rest } :=
  h.congr (fun _ => rfl) (fun _ => rfl) (fun _ _ _ hk => hk) rfl rfl rfl h.frame

theorem verify_falsePhase (ord : HashOrder) {fuel : ℕ} (hfuel : D.length * (D.length + 1) < fuel)
    (hbot : .falseDatapoint ∉ D) : ∀ (steps : ℕ) (st : SolverState),
      FalsePhase D m₀ Cons (fun _ _ => False) st → workLeft D st < steps →
      ∃ s', verifyConstraintsSatisfiability ord fuel steps st = some (true, s') ∧
        FalsePhase D m₀ Cons (fun _ _ => False) s' ∧ s'.worklist = [] := by
  intro steps
  induction steps with
  | zero => intro st _ hw; omega
  | succ steps ih =>
    intro st h hw
    unfold verifyConstraintsSatisfiability
    cases hwl : st.worklist with
    | nil => exact ⟨st, rfl, h, hwl⟩
    | cons x rest =>
      have hpop := workLeft_pop (D := D) hwl
      have hmem : x ∈ st.worklist := by rw [hwl]; simp
      have hphase : FalsePhase D m₀ Cons (fun y _ => y = x) { st with worklist := rest } := by
        refine ⟨h.inv.pop rest, h.nonempty, ?_, ?_, h.no_true, ?_, ?_⟩
        · exact fun y hy => h.scope y (by rw [hwl]; exact List.mem_cons_of_mem _ hy)
        · exact fun y hy => h.worklist y (by rw [hwl]; exact List.mem_cons_of_mem _ hy)
        · refine h.marks.imp id fun hm => ⟨hm.1, hm.2.mem, hm.2.not_true, hm.2.sound, hm.2.complete⟩
        · intro y k hk hy
          rcases h.settled y k hk hy with hm | hp | hs
          · rw [hwl] at hm
            rcases List.mem_cons.mp hm with rfl | hm
            · exact .inr (.inl rfl)
            · exact .inl hm
          · exact hp.elim
          · exact .inr (.inr hs)
      obtain ⟨s', hrun, hphase', hwork⟩ :=
        processVariable_false ord hphase (h.scope x hmem) (h.worklist x hmem) hfuel hbot
      simp only [hrun]
      exact ih s' hphase' (by omega)

/-- The loop of `verify_constraints_satisfiability`. -/
theorem verifyConstraintsSatisfiability_spec {N : List Ptr} (ord : HashOrder) (fuel : ℕ)
    (hfuel : D.length * (D.length + 1) < fuel) (hbot : .falseDatapoint ∉ D) :
    ∀ (steps : ℕ) (st : SolverState), TruePhase D m₀ Cons N (fun _ _ => False) st →
      workLeft D st < steps →
      ∃ r s', verifyConstraintsSatisfiability ord fuel steps st = some (r, s') ∧
        (r = true → FalsePhase D m₀ Cons (fun _ _ => False) s' ∧ s'.worklist = []) ∧
        (r = false → Refuted D m₀ Cons N s') := by
  intro steps
  induction steps with
  | zero => intro st _ hw; omega
  | succ steps ih =>
    intro st h hw
    obtain ⟨A, B, hAB, hA, hB⟩ := h.worklist
    cases A with
    | nil =>
      have hphase := h.falsePhase (by rw [hAB]; exact hB)
      obtain ⟨s', hrun, hres⟩ := verify_falsePhase ord hfuel hbot (steps + 1) st hphase hw
      exact ⟨true, s', hrun, fun _ => hres, by simp⟩
    | cons x A =>
      have hwl : st.worklist = x :: (A ++ B) := hAB
      have hpop := workLeft_pop (D := D) hwl
      have hmem : x ∈ st.worklist := by rw [hwl]; simp
      have hphase : TruePhase D m₀ Cons N (fun y _ => y = x) { st with worklist := A ++ B } := by
        refine ⟨h.inv.pop _, h.flag, h.selfMarked, h.negative_eq, h.nonempty, ?_,
          ⟨A, B, rfl, fun y hy => hA y (List.mem_cons_of_mem _ hy), hB⟩, ?_, ?_⟩
        · exact fun y hy => h.scope y (by rw [hwl]; exact List.mem_cons_of_mem _ hy)
        · intro y k hk hy
          rcases h.false_settled y k hk hy with hm | hno
          · rw [hwl] at hm
            rcases List.mem_cons.mp hm with rfl | hm
            · have hy' : st.label y = some false := hy
              rw [hA y (by simp)] at hy'
              simp at hy'
            · exact .inl hm
          · exact .inr hno
        · intro y k hk hy
          rcases h.true_settled y k hk hy with hm | hp | hno
          · rw [hwl] at hm
            rcases List.mem_cons.mp hm with rfl | hm
            · exact .inr (.inl rfl)
            · exact .inl hm
          · exact hp.elim
          · exact .inr (.inr hno)
      obtain ⟨r, s', hrun, hT, hF⟩ :=
        processVariable_true ord fuel hphase (h.scope x hmem) (hA x (by simp))
      unfold verifyConstraintsSatisfiability
      rw [hwl]
      simp only [hrun]
      cases r with
      | false => exact ⟨false, s', rfl, by simp, fun _ => hF rfl⟩
      | true =>
        obtain ⟨hphase', hwork⟩ := hT rfl
        exact ih s' hphase' (by omega)

end HiceDt.Solver
