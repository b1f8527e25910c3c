import HiceDt.Learner.Exact

/-!
# Complete Horn assignments

The sampler of Horn assignments never has to backtrack: after every call of the
solver each point that is left may be true and may be false, so the next guess
succeeds, whatever the random numbers are.

Results:

* `foldl_erase_eq_filter`: erasing points one by one.
* `completeAssignment_returns`: the sampler returns a complete assignment.
* `updateDatapointPtrsToFrac_complete`: the three rounds, in all states in which they
  are called, and the fractions they leave.
-/

namespace HiceDt.Learner

open HiceDt Solver Score Loop

variable {F : Type} {D P N : List Ptr} {m₁ m m' : Heap} {hcs : List HornConstraint}
  {s s' t : LearnerState F} {sl : Slice} {L : List Slice} {temp : List Ptr}

/-- The points of the vector are different, so that erasing the first occurrence of a
    point, as the loops in lines 1119–1136 of `simple_job_manager.h` do, leaves none. -/
theorem foldl_erase_eq_filter {α : Type} [DecidableEq α] (l : List α) (hl : l.Nodup) :
    ∀ set : List α, set.foldl List.erase l = l.filter fun y => !set.contains y := by
  intro set
  induction set generalizing l with
  | nil => simp
  | cons x set ih =>
    rw [List.foldl_cons, ih _ (hl.erase x), hl.erase_eq_filter, List.filter_filter]
    refine List.filter_congr fun y _ => ?_
    by_cases hyx : y = x
    · simp [hyx]
    · simp [hyx]

/-! ## One assignment -/

/-- What the sampler keeps: every unlabelled point is left or in one of the sets, and
    the points that are left may be true and may be false. -/
structure Completing (D : List Ptr) (hcs : List HornConstraint) (m : Heap) (temp P N : List Ptr) :
    Prop where
  assignment : Assignment D m temp P N
  covered : ∀ x ∈ D, label m x = none → x ∈ temp ∨ x ∈ P ∨ x ∈ N
  consistent : ∃ ν, Consistent m D hcs P N ν
  free : ∀ x ∈ temp, ∀ b, ∃ ν, Consistent m D hcs P N ν ∧ ν x = b

/-- Every point has a label or is in one of the sets, and the labelling that they make
    up satisfies the constraints. -/
structure Complete (D : List Ptr) (hcs : List HornConstraint) (m : Heap) (P N : List Ptr) :
    Prop where
  covered : ∀ x ∈ D, label m x = none → x ∈ P ∨ x ∈ N
  unlabelled : ∀ x, x ∈ P ∨ x ∈ N → x ∈ D ∧ label m x = none
  consistent : ∃ ν, Consistent m D hcs P N ν

theorem Complete.congr (h : Complete D hcs m P N) (hlabel : ∀ x ∈ D, label m' x = label m x) :
    Complete D hcs m' P N := by
  obtain ⟨ν, hν⟩ := h.consistent
  refine ⟨fun x hx hn => ?_, fun x hx => ?_, ν, (consistent_congr hlabel ν).mpr hν⟩
  · rw [hlabel x hx] at hn
    exact h.covered x hx hn
  · obtain ⟨hD, hn⟩ := h.unlabelled x hx
    exact ⟨hD, (hlabel x hD).trans hn⟩

theorem Completing.congr (h : Completing D hcs m temp P N)
    (hlabel : ∀ x ∈ D, label m' x = label m x) : Completing D hcs m' temp P N := by
  have hopen : ∀ x, x ∈ D ∧ label m x = none → x ∈ D ∧ label m' x = none := fun x hx =>
    ⟨hx.1, (hlabel x hx.1).trans hx.2⟩
  refine ⟨⟨fun x hx => ?_, fun x hx => ?_, fun x hx => ?_, h.assignment.disjoint⟩,
    fun x hx hn => ?_, ?_, fun x hx b => ?_⟩
  · exact ⟨hopen x (h.assignment.temp x hx).1, (h.assignment.temp x hx).2⟩
  · exact hopen x (h.assignment.positive x hx)
  · exact hopen x (h.assignment.negative x hx)
  · rw [hlabel x hx] at hn
    exact h.covered x hx hn
  · obtain ⟨ν, hν⟩ := h.consistent
    exact ⟨ν, (consistent_congr hlabel ν).mpr hν⟩
  · obtain ⟨ν, hν, hνx⟩ := h.free x hx b
    exact ⟨ν, (consistent_congr hlabel ν).mpr hν, hνx⟩

/-- A guess for a point that is left is consistent. -/
theorem Completing.guess (h : Completing D hcs m temp P N) {x : Ptr} (hx : x ∈ temp) (b : Bool) :
    ∃ ν, Consistent m D hcs (if b then P.insert x else P) (if b then N else N.insert x) ν := by
  obtain ⟨ν, ⟨hl, hP, hN, hh⟩, hνx⟩ := h.free x hx b
  refine ⟨ν, hl, fun y hy => ?_, fun y hy => ?_, hh⟩
  · cases b with
    | false => exact hP y hy
    | true =>
      rcases List.mem_insert_iff.mp hy with rfl | hy
      · exact hνx
      · exact hP y hy
  · cases b with
    | true => exact hN y hy
    | false =>
      rcases List.mem_insert_iff.mp hy with rfl | hy
      · exact hνx
      · exact hN y hy

/-- After the solver has answered, the points that it did not label may still be true
    and may still be false. -/
theorem Completing.next {st : SolverState} {P' N' : List Ptr} (h : Completing D hcs m temp P N)
    (hsub : (∀ x ∈ P, x ∈ P') ∧ ∀ x ∈ N, x ∈ N') (hsol : Solved m D hcs P' N' true st)
    (hun : ∀ x, x ∈ P' ∨ x ∈ N' → x ∈ D ∧ label m x = none) :
    Completing D hcs m (temp.filter fun y => !st.positive.contains y && !st.negative.contains y)
      st.positive st.negative := by
  have hpos : ∀ x ∈ P', x ∈ st.positive := fun x hx =>
    (hsol.positive rfl x).mpr ⟨(hun x (.inl hx)).1, (hun x (.inl hx)).2, fun ν hν => hν.2.1 x hx⟩
  have hneg : ∀ x ∈ N', x ∈ st.negative := fun x hx =>
    (hsol.negative rfl x).mpr ⟨(hun x (.inr hx)).1, (hun x (.inr hx)).2, fun ν hν => hν.2.2.1 x hx⟩
  refine ⟨.next (fun x hx => (h.assignment.temp x hx).1) hsol fun _ _ => rfl, fun x hx hn => ?_, ?_,
    fun x hx b => ?_⟩
  · rcases h.covered x hx hn with ht | hP | hN
    · by_cases hxP : x ∈ st.positive
      · exact .inr (.inl hxP)
      by_cases hxN : x ∈ st.negative
      · exact .inr (.inr hxN)
      exact .inl (List.mem_filter.mpr ⟨ht, by simp [hxP, hxN]⟩)
    · exact .inr (.inl (hpos x (hsub.1 x hP)))
    · exact .inr (.inr (hneg x (hsub.2 x hN)))
  · exact (labelsOk_of_solved hsol).consistent
  · rw [List.mem_filter] at hx
    obtain ⟨hx, hnot⟩ := hx
    obtain ⟨hD, hn⟩ := (h.assignment.temp x hx).1
    simp only [Bool.and_eq_true, Bool.not_eq_true', decide_eq_false_iff_not,
      List.elem_eq_mem] at hnot
    exact Solved.free hsol hD hn hnot.1 hnot.2 b

/-- One iteration of the `while` loop: the guess succeeds and a point less is left. -/
theorem completeAssignment_step (env : Environment) (cfg : Settings)
    (h : LearnInv D m₁ cfg.hornConstraints s L) {x : Ptr} (fuel : ℕ)
    (hc : Completing D cfg.hornConstraints s.solver.mem (x :: temp) P N) :
    ∃ temp' P' N' s', completeAssignment env cfg (fuel + 1) (x :: temp) P N s =
        completeAssignment env cfg fuel temp' P' N' s' ∧ Quiet s s' ∧
      s'.datapointPtrsToFrac = s.datapointPtrsToFrac ∧ temp'.length < (x :: temp).length ∧
      Completing D cfg.hornConstraints s'.solver.mem temp' P' N' := by
  set s₂ := ((s.nextRand env).2.nextRand env).2 with hs₂
  have hq₂ : Quiet s s₂ := (Quiet.nextRand env s).trans (Quiet.nextRand env _)
  have h₂ := h.quiet hq₂
  have hitem := getD_mem temp ((s.nextRand env).1 % (x :: temp).length) x
  set item := (x :: temp).getD ((s.nextRand env).1 % (x :: temp).length) x with hitem'
  set b := decide (((s.nextRand env).2.nextRand env).1 % 2 = 0) with hb
  have hins := hc.assignment.insert hitem b
  obtain ⟨ok, st, hrun, hq₃, hsol⟩ := LearnerState.solve_spec env cfg h₂.perm h₂.sample
    hins.positive hins.negative hins.disjoint
  have hok : ok = true := hsol.satisfiable.mpr (hc.guess hitem b)
  subst hok
  have hsub : (∀ y ∈ P, y ∈ if b then P.insert item else P) ∧
      ∀ y ∈ N, y ∈ if b then N else N.insert item := by
    cases b with
    | true => exact ⟨fun y hy => List.mem_insert_of_mem hy, fun y hy => hy⟩
    | false => exact ⟨fun y hy => hy, fun y hy => List.mem_insert_of_mem hy⟩
  have hun : ∀ y, (y ∈ if b then P.insert item else P) ∨ (y ∈ if b then N else N.insert item) →
      y ∈ D ∧ label s.solver.mem y = none := fun y hy => hy.elim (hins.positive y) (hins.negative y)
  have hnext := hc.next hsub hsol hun
  have hmem : ∀ y ∈ D, label st.mem y = label s.solver.mem y := (hq₂.trans hq₃).label_eq h
  refine ⟨_, st.positive, st.negative, { s₂ with solver := st }, ?_, hq₂.trans hq₃, rfl, ?_,
    hnext.congr hmem⟩
  · rw [completeAssignment]
    simp only
    have hrun' : s₂.solve env cfg
        (if ((s.nextRand env).2.nextRand env).1 % 2 = 0 then P.insert item else P)
        (if ((s.nextRand env).2.nextRand env).1 % 2 = 0 then N else N.insert item) =
          .ok (true, { s₂ with solver := st }) := by
      simpa only [hb, decide_eq_true_eq] using hrun
    rw [hrun']
    rfl
  · -- the guessed point is dropped
    refine List.length_filter_lt_length_iff_exists.mpr ⟨item, hitem, ?_⟩
    have hin : item ∈ st.positive ∨ item ∈ st.negative := by
      obtain ⟨hD, hn⟩ := (hc.assignment.temp item hitem).1
      cases hbv : b with
      | true =>
        refine .inl ((hsol.positive rfl item).mpr ⟨hD, hn, fun ν hν => hν.2.1 item ?_⟩)
        rw [hbv]
        exact List.mem_insert_self
      | false =>
        refine .inr ((hsol.negative rfl item).mpr ⟨hD, hn, fun ν hν => hν.2.2.1 item ?_⟩)
        rw [hbv]
        exact List.mem_insert_self
    rcases hin with hin | hin
    · simp [hin]
    · simp [hin]

/-- The sampler returns a complete assignment, whatever it guesses. -/
theorem completeAssignment_returns (env : Environment) (cfg : Settings) :
    ∀ (fuel : ℕ) (temp P N : List Ptr) (s : LearnerState F),
      LearnInv D m₁ cfg.hornConstraints s L → temp.length ≤ fuel →
      Completing D cfg.hornConstraints s.solver.mem temp P N →
      ∃ P' N' s', completeAssignment env cfg fuel temp P N s = .ok (P', N', s') ∧ Quiet s s' ∧
        s'.datapointPtrsToFrac = s.datapointPtrsToFrac ∧
        Complete D cfg.hornConstraints s.solver.mem P' N' := by
  intro fuel
  induction fuel with
  | zero =>
    intro temp P N s h hlen hc
    obtain rfl := List.length_eq_zero_iff.mp (Nat.le_zero.mp hlen)
    exact ⟨P, N, s, rfl, .refl s, rfl, fun x hx hn => (hc.covered x hx hn).resolve_left (by simp),
      fun x hx => hx.elim (hc.assignment.positive x) (hc.assignment.negative x), hc.consistent⟩
  | succ fuel ih =>
    intro temp P N s h hlen hc
    cases temp with
    | nil =>
      exact ⟨P, N, s, rfl, .refl s, rfl, fun x hx hn => (hc.covered x hx hn).resolve_left (by simp),
        fun x hx => hx.elim (hc.assignment.positive x) (hc.assignment.negative x), hc.consistent⟩
    | cons x temp =>
      obtain ⟨temp', P', N', s', hstep, hq, hfrac, hlt, hc'⟩ :=
        completeAssignment_step env cfg h fuel hc
      obtain ⟨P'', N'', s'', hrun, hq', hfrac', hcomplete⟩ := ih temp' P' N' s' (h.quiet hq)
        (by omega) hc'
      refine ⟨P'', N'', s'', hstep.trans hrun, hq.trans hq', hfrac'.trans hfrac, ?_⟩
      exact hcomplete.congr fun y hy => (hq.label_eq h y hy).symm

/-! ## Three rounds -/

section Rounds

variable [Score F]

/-- What `double` guarantees about the numbers that the sampler computes: sums of small
    integers are exact, and a third of one is between 0 and 1 if the integer is between
    0 and 3. -/
structure ExactScores (F : Type) [Score F] : Prop where
  add_ofInt : ∀ a b : ℤ, 0 ≤ a → a ≤ 3 → 0 ≤ b → b ≤ 3 → add (ofInt a) (ofInt b : F) = ofInt (a + b)
  third : ∀ n : ℤ, 0 ≤ n → n ≤ 3 → le (ofInt 0 : F) (div (ofInt n) (ofInt 3)) = true ∧
    le (div (ofInt n) (ofInt 3) : F) (ofInt 1) = true

/-- One if the assignment labels the point true, and zero otherwise. -/
def assignedValue (m : Heap) (P : List Ptr) (x : Ptr) : ℤ :=
  if label m x = some true ∨ x ∈ P then 1 else 0

omit [Score F] in
theorem assignedValue_bounds (m : Heap) (P : List Ptr) (x : Ptr) :
    0 ≤ assignedValue m P x ∧ assignedValue m P x ≤ 1 := by
  unfold assignedValue
  split_ifs <;> omega

/-- The labelled points have their label as fraction. -/
def Initialized (D : List Ptr) (s : LearnerState F) : Prop :=
  ∀ x ∈ D, ∀ b, label s.solver.mem x = some b →
    s.datapointPtrsToFrac x = some (if b then ofInt 1 else ofInt 0)

theorem initialized (hp : s.datapointPtrs.Perm D) :
    Initialized D (initializeDatapointPtrsToFrac s) := by
  intro x hx b hb
  have hb' : label s.solver.mem x = some b := hb
  unfold label Datapoint.label at hb'
  split_ifs at hb' with hcl
  show (if x ∈ s.datapointPtrs ∧ (s.solver.mem x).isClassified = true then _ else none) = _
  rw [if_pos ⟨hp.mem_iff.mpr hx, hcl⟩, Option.some.inj hb']

/-- One round returns, with a complete assignment that is added to the sums. -/
theorem sampleRound_returns (env : Environment) (cfg : Settings)
    (h : LearnInv D m₁ cfg.hornConstraints s L) (hc : Closed D cfg.hornConstraints s.solver.mem)
    (hi : Initialized D s) {unclassified : List Ptr}
    (hun : ∀ x, x ∈ unclassified ↔ x ∈ D ∧ label s.solver.mem x = none) (sum : Ptr → Option F) :
    ∃ P N s' sum', completeAssignment env cfg unclassified.length unclassified [] [] s =
        .ok (P, N, s') ∧ Complete D cfg.hornConstraints s.solver.mem P N ∧
      sampleRound env cfg unclassified (sum, s) = .ok (sum', s') ∧ Quiet s s' ∧
      Initialized D s' ∧ ∀ x ∈ D, sum' x =
        some (add ((sum x).getD (ofInt 0)) (ofInt (assignedValue s.solver.mem P x))) := by
  have hstart : Completing D cfg.hornConstraints s.solver.mem unclassified [] [] :=
    ⟨⟨fun x hx => ⟨(hun x).mp hx, by simp⟩, by simp, by simp, by simp⟩,
      fun x hx hn => .inl ((hun x).mpr ⟨hx, hn⟩), hc.consistent,
      fun x hx b => hc.free x ((hun x).mp hx).1 ((hun x).mp hx).2 b⟩
  obtain ⟨P, N, s', hrun, hq, hfrac, hcomplete⟩ := completeAssignment_returns env cfg
    unclassified.length unclassified [] [] s h (le_refl _) hstart
  have hround : ∃ sum', sampleRound env cfg unclassified (sum, s) = .ok (sum', s') ∧
      ∀ x frac, (if x ∈ N then some (ofInt 0) else if x ∈ P then some (ofInt 1)
        else s'.datapointPtrsToFrac x : Option F) = some frac →
        sum' x = some (add ((sum x).getD (ofInt 0)) frac) := by
    unfold sampleRound
    simp only [hrun, bind, Except.bind]
    exact ⟨_, rfl, fun x frac hfrac => by simp only [hfrac]⟩
  obtain ⟨sum', hsum, hval⟩ := hround
  refine ⟨P, N, s', sum', hrun, hcomplete, hsum, hq, fun x hx b hb => ?_, fun x hx => ?_⟩
  · rw [hq.label_eq h x hx] at hb
    rw [hfrac]
    exact hi x hx b hb
  · refine hval x _ ?_
    unfold assignedValue
    cases hl : label s.solver.mem x with
    | none =>
      obtain ⟨ν, hν⟩ := hcomplete.consistent
      rcases hcomplete.covered x hx hl with hP | hN
      · have hN : x ∉ N := by
          intro hN
          have := hν.2.1 x hP
          rw [hν.2.2.1 x hN] at this
          simp at this
        rw [if_neg hN, if_pos hP, if_pos (.inr hP)]
      · have hP : x ∉ P := by
          intro hP
          have := hν.2.1 x hP
          rw [hν.2.2.1 x hN] at this
          simp at this
        rw [if_pos hN, if_neg (by simp [hP])]
    | some b =>
      have hnot : ∀ set : List Ptr, (∀ y ∈ set, y ∈ D ∧ label s.solver.mem y = none) → x ∉ set := by
        intro set hset hxs
        rw [(hset x hxs).2] at hl
        simp at hl
      rw [if_neg (hnot N fun y hy => hcomplete.unlabelled y (.inr hy)),
        if_neg (hnot P fun y hy => hcomplete.unlabelled y (.inl hy)), hfrac, hi x hx b hl]
      have hP := hnot P fun y hy => hcomplete.unlabelled y (.inl hy)
      cases b with
      | true => simp
      | false => simp [hP]

/-- The unclassified points of the vector. -/
def unclassifiedPtrs (s : LearnerState F) : List Ptr :=
  s.datapointPtrs.filter fun x => !(s.solver.mem x).isClassified

omit [Score F] in
theorem mem_unclassifiedPtrs (hp : s.datapointPtrs.Perm D) (x : Ptr) :
    x ∈ unclassifiedPtrs s ↔ x ∈ D ∧ label s.solver.mem x = none := by
  unfold unclassifiedPtrs label Datapoint.label
  rw [List.mem_filter, hp.mem_iff]
  simp

/-- The three rounds return, and leave a fraction for every point. -/
theorem updateDatapointPtrsToFrac_returns (env : Environment) (cfg : Settings)
    (h : LearnInv D m₁ cfg.hornConstraints s L) (hc : Closed D cfg.hornConstraints s.solver.mem)
    (hi : Initialized D s) :
    ∃ P₁ N₁ s₁ P₂ N₂ s₂ P₃ N₃ s₃ s',
      completeAssignment env cfg (unclassifiedPtrs s).length (unclassifiedPtrs s) [] [] s =
        .ok (P₁, N₁, s₁) ∧
      completeAssignment env cfg (unclassifiedPtrs s).length (unclassifiedPtrs s) [] [] s₁ =
        .ok (P₂, N₂, s₂) ∧
      completeAssignment env cfg (unclassifiedPtrs s).length (unclassifiedPtrs s) [] [] s₂ =
        .ok (P₃, N₃, s₃) ∧
      Complete D cfg.hornConstraints s.solver.mem P₁ N₁ ∧
      Complete D cfg.hornConstraints s.solver.mem P₂ N₂ ∧
      Complete D cfg.hornConstraints s.solver.mem P₃ N₃ ∧
      updateDatapointPtrsToFrac env cfg s = .ok s' ∧ Quiet s s' ∧
      ∀ x ∈ D, s'.datapointPtrsToFrac x = some (div (add (add (add (ofInt 0)
        (ofInt (assignedValue s.solver.mem P₁ x))) (ofInt (assignedValue s.solver.mem P₂ x)))
        (ofInt (assignedValue s.solver.mem P₃ x))) (ofInt 3)) := by
  -- every round starts with the same labels
  have hround : ∀ t, Quiet s t → Initialized D t → ∀ sum : Ptr → Option F, ∃ P N t' sum',
      completeAssignment env cfg (unclassifiedPtrs s).length (unclassifiedPtrs s) [] [] t =
        .ok (P, N, t') ∧ Complete D cfg.hornConstraints s.solver.mem P N ∧
      sampleRound env cfg (unclassifiedPtrs s) (sum, t) = .ok (sum', t') ∧ Quiet s t' ∧
      Initialized D t' ∧ ∀ x ∈ D, sum' x =
        some (add ((sum x).getD (ofInt 0)) (ofInt (assignedValue s.solver.mem P x))) := by
    intro t hq ht sum
    have hlabel := hq.label_eq h
    have hun : ∀ x, x ∈ unclassifiedPtrs s ↔ x ∈ D ∧ label t.solver.mem x = none := by
      intro x
      rw [mem_unclassifiedPtrs h.perm]
      exact and_congr_right fun hx => by rw [hlabel x hx]
    obtain ⟨P, N, t', sum', hrun, hcomplete, hsum, hq', ht', hval⟩ := sampleRound_returns env cfg
      (h.quiet hq) (hc.quiet h hq) ht hun sum
    refine ⟨P, N, t', sum', hrun, hcomplete.congr fun x hx => (hlabel x hx).symm, hsum,
      hq.trans hq', ht', fun x hx => ?_⟩
    rw [hval x hx]
    unfold assignedValue
    rw [hlabel x hx]
  obtain ⟨P₁, N₁, s₁, f₁, hrun₁, hc₁, hsum₁, hq₁, hi₁, hval₁⟩ := hround s (.refl s) hi fun _ => none
  obtain ⟨P₂, N₂, s₂, f₂, hrun₂, hc₂, hsum₂, hq₂, hi₂, hval₂⟩ := hround s₁ hq₁ hi₁ f₁
  obtain ⟨P₃, N₃, s₃, f₃, hrun₃, hc₃, hsum₃, hq₃, hi₃, hval₃⟩ := hround s₂ hq₂ hi₂ f₂
  refine ⟨P₁, N₁, s₁, P₂, N₂, s₂, P₃, N₃, s₃,
    { s₃ with datapointPtrsToFrac := fun x => (f₃ x).map fun frac => div frac (ofInt 3) },
    hrun₁, hrun₂, hrun₃, hc₁, hc₂, hc₃, ?_, ?_, fun x hx => ?_⟩
  · show (sampleRound env cfg (unclassifiedPtrs s) (fun _ => none, s) >>= _) = _
    rw [hsum₁]
    show (sampleRound env cfg (unclassifiedPtrs s) (f₁, s₁) >>= _) = _
    rw [hsum₂]
    show (sampleRound env cfg (unclassifiedPtrs s) (f₂, s₂) >>= _) = _
    rw [hsum₃]
    rfl
  · exact ⟨hq₃.datapointPtrs, hq₃.tree, hq₃.slices, hq₃.isFirstSplit, hq₃.mem, hq₃.falseLabel⟩
  · show (f₃ x).map _ = _
    rw [hval₃ x hx, hval₂ x hx, hval₁ x hx]
    rfl

/-- What the callers need of it. -/
theorem updateDatapointPtrsToFrac_frac (env : Environment) (cfg : Settings)
    (h : LearnInv D m₁ cfg.hornConstraints s L) (hc : Closed D cfg.hornConstraints s.solver.mem)
    (hi : Initialized D s) :
    ∃ s', updateDatapointPtrsToFrac env cfg s = .ok s' ∧ Quiet s s' ∧
      ∀ x ∈ D, ∃ frac, s'.datapointPtrsToFrac x = some frac := by
  obtain ⟨P₁, N₁, s₁, P₂, N₂, s₂, P₃, N₃, s₃, s', -, -, -, -, -, -, hupdate, hq, hval⟩ :=
    updateDatapointPtrsToFrac_returns env cfg h hc hi
  exact ⟨s', hupdate, hq, fun x hx => ⟨_, hval x hx⟩⟩

/-- The state in which `next_job` calls the sampler: to select a slice, or to split a
    slice that is not a leaf. -/
def CallsSampler (env : Environment) (cfg : Settings) (s t : LearnerState F) : Prop :=
  ∃ u, t = initializeDatapointPtrsToFrac u ∧ (u = s ∨
    ∃ i s₁ sl answer, selectSlice env cfg s = .ok (i, s₁) ∧ s₁.slices[i]? = some sl ∧
      isLeaf env cfg sl { s₁ with slices := s₁.slices.eraseIdx i } = .ok (answer, u))

/-- What holds when the sampler is called. -/
theorem Run.callsSampler {env : Environment} {cfg : Settings} {s₀ t : LearnerState F}
    (h : Run env cfg s₀ s) (ht : CallsSampler env cfg s t) :
    (∃ L, LearnInv s₀.datapointPtrs s₀.solver.mem cfg.hornConstraints t L) ∧
      Closed s₀.datapointPtrs cfg.hornConstraints t.solver.mem ∧
      Initialized s₀.datapointPtrs t := by
  obtain ⟨hinv, hc⟩ := h.inv
  obtain ⟨u, rfl, hu⟩ := ht
  suffices hmain : (∃ L, LearnInv s₀.datapointPtrs s₀.solver.mem cfg.hornConstraints u L) ∧
      Closed s₀.datapointPtrs cfg.hornConstraints u.solver.mem by
    obtain ⟨⟨L, hL⟩, hcu⟩ := hmain
    exact ⟨⟨L, hL.quiet (.initializeDatapointPtrsToFrac u)⟩, hcu, initialized hL.perm⟩
  rcases hu with rfl | ⟨i, s₁, sl, answer, hsel, hget, hleaf⟩
  · exact ⟨⟨_, hinv⟩, hc⟩
  · have hq₁ := selectSlice_quiet env cfg hinv hsel
    have h₁ := hinv.quiet hq₁
    have hc₁ := hc.quiet hinv hq₁
    rw [← hq₁.slices] at h₁
    have htake := h₁.take hget
    obtain ⟨answer', st, hleaf', hq₂, -⟩ := isLeaf_exact_of_closed env cfg htake.perm htake.sample
      hc₁ (htake.tree.range sl List.mem_cons_self)
    rw [hleaf] at hleaf'
    obtain ⟨rfl, rfl⟩ := Prod.mk.inj (Except.ok.inj hleaf')
    exact ⟨⟨_, htake.quiet hq₂⟩,
      Closed.quiet (s := { s₁ with slices := s₁.slices.eraseIdx i }) hc₁ htake hq₂⟩

/-- Wherever a run calls the sampler and whatever the random numbers are, it returns:
    each of the three assignments labels every point and satisfies the labels and the
    constraints, and every point has a fraction between 0 and 1, so that entropies
    can be computed. -/
theorem updateDatapointPtrsToFrac_complete (hF : ExactScores F) (env : Environment)
    (cfg : Settings) (s₀ s t : LearnerState F) (hrun : Run env cfg s₀ s)
    (ht : CallsSampler env cfg s t) :
    ∃ P₁ N₁ t₁ P₂ N₂ t₂ P₃ N₃ t₃ t',
      completeAssignment env cfg (unclassifiedPtrs t).length (unclassifiedPtrs t) [] [] t =
        .ok (P₁, N₁, t₁) ∧
      completeAssignment env cfg (unclassifiedPtrs t).length (unclassifiedPtrs t) [] [] t₁ =
        .ok (P₂, N₂, t₂) ∧
      completeAssignment env cfg (unclassifiedPtrs t).length (unclassifiedPtrs t) [] [] t₂ =
        .ok (P₃, N₃, t₃) ∧
      Complete s₀.datapointPtrs cfg.hornConstraints t.solver.mem P₁ N₁ ∧
      Complete s₀.datapointPtrs cfg.hornConstraints t.solver.mem P₂ N₂ ∧
      Complete s₀.datapointPtrs cfg.hornConstraints t.solver.mem P₃ N₃ ∧
      updateDatapointPtrsToFrac env cfg t = .ok t' ∧
      (∀ x ∈ s₀.datapointPtrs, ∃ frac, t'.datapointPtrsToFrac x = some frac ∧
        frac = div (ofInt (assignedValue t.solver.mem P₁ x + assignedValue t.solver.mem P₂ x +
          assignedValue t.solver.mem P₃ x)) (ofInt 3) ∧
        le (ofInt 0) frac = true ∧ le frac (ofInt 1) = true) ∧
      ∀ left right, right < t'.datapointPtrs.length → ∃ e, entropy cfg t' left right = .ok e := by
  obtain ⟨⟨L, hL⟩, hc, hi⟩ := hrun.callsSampler ht
  obtain ⟨P₁, N₁, t₁, P₂, N₂, t₂, P₃, N₃, t₃, t', hrun₁, hrun₂, hrun₃, hc₁, hc₂, hc₃, hupdate, hq,
    hval⟩ := updateDatapointPtrsToFrac_returns env cfg hL hc hi
  refine ⟨P₁, N₁, t₁, P₂, N₂, t₂, P₃, N₃, t₃, t', hrun₁, hrun₂, hrun₃, hc₁, hc₂, hc₃, hupdate,
    fun x hx => ?_, fun left right hr => entropy_of_frac cfg fun i _ hi => ?_⟩
  · obtain ⟨a₁, b₁⟩ := assignedValue_bounds t.solver.mem P₁ x
    obtain ⟨a₂, b₂⟩ := assignedValue_bounds t.solver.mem P₂ x
    obtain ⟨a₃, b₃⟩ := assignedValue_bounds t.solver.mem P₃ x
    refine ⟨_, hval x hx, ?_, ?_⟩
    · rw [hF.add_ofInt 0 _ (by omega) (by omega) a₁ (by omega),
        hF.add_ofInt _ _ (by omega) (by omega) a₂ (by omega),
        hF.add_ofInt _ _ (by omega) (by omega) a₃ (by omega), zero_add]
    · rw [hF.add_ofInt 0 _ (by omega) (by omega) a₁ (by omega),
        hF.add_ofInt _ _ (by omega) (by omega) a₂ (by omega),
        hF.add_ofInt _ _ (by omega) (by omega) a₃ (by omega)]
      exact hF.third _ (by omega) (by omega)
  · have hlt : i < t'.datapointPtrs.length := lt_of_le_of_lt hi hr
    exact ⟨_, hval _ ((hL.quiet hq).ptr_mem hlt)⟩

end Rounds

/-- Exact scores compute exactly. -/
theorem exactScores_real : ExactScores ℝ := by
  refine ⟨fun a b _ _ _ _ => ?_, fun n hn hn' => ⟨?_, ?_⟩⟩
  · show (a : ℝ) + (b : ℝ) = ((a + b : ℤ) : ℝ)
    push_cast
    rfl
  · show decide (((0 : ℤ) : ℝ) ≤ (n : ℝ) / ((3 : ℤ) : ℝ)) = true
    have h0 : (0 : ℝ) ≤ n := by exact_mod_cast hn
    refine decide_eq_true ?_
    push_cast
    positivity
  · show decide ((n : ℝ) / ((3 : ℤ) : ℝ) ≤ ((1 : ℤ) : ℝ)) = true
    have h3 : (n : ℝ) ≤ 3 := by exact_mod_cast hn'
    refine decide_eq_true ?_
    push_cast
    rw [div_le_one (by norm_num)]
    exact h3

/-- The sampler at the start of the run on the sample of two points. -/
theorem updateDatapointPtrsToFrac_complete_exclusive :
    ∃ s₁ t' : LearnerState ℝ,
      initialRun .stable (exclusive.settings [] none) exclusive.fresh = .ok s₁ ∧
      updateDatapointPtrsToFrac .stable (exclusive.settings [] none)
        (initializeDatapointPtrsToFrac (initialSlice s₁)) = .ok t' := by
  obtain ⟨st, hinit, hrun⟩ := exclusive_run
  obtain ⟨-, -, -, -, -, -, -, -, -, t', -, -, -, -, -, -, hupdate, -⟩ :=
    updateDatapointPtrsToFrac_complete exactScores_real .stable (exclusive.settings [] none)
      exclusive.fresh _ _ hrun ⟨_, rfl, .inl rfl⟩
  exact ⟨_, t', hinit, hupdate⟩

end HiceDt.Learner
