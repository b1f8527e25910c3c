import HiceDt.Lib.Ice
import HiceDt.Smt.Shape

/-!
# Progress of the CHC teacher

The loop of `learn2` (`chc_verifier/src/chc_verifier.cpp`, lines 87–270) for a learner
whose conjectures fit the counterexamples it was given. The assertion
`!all_as_before` is commented out in the source; here it holds, and so does more.

Results:

* `not_fits`: a counterexample excludes the conjectures for which it was found, also those
  of them that mention foreign variables.
* `Head.inv`: every clause in `unsatisfied_chcs` has a recorded counterexample.
* `learn2_progress`: no clause is skipped, and no answer of the learner is repeated.
-/

namespace HiceDt.Smt

open HiceDt Loop Fol

variable {α : Type} {T : Theory α} {I : Interp α} {check : Solver α} {p : Problem}
  {chc : ConstraintedHornClause} {conjectures conjectures' previous : ConjectureMap}
  {ce : HornCounterexample α}

/-! ## Samples -/

/-- The counterexample holds if the data points in `ν` are true. -/
def HornCounterexample.Holds (ν : TeacherDatapoint α → Prop) (ce : HornCounterexample α) : Prop :=
  (∀ d ∈ ce.lhs, ν d) → ∃ d ∈ ce.rhs, ν d

/-- The conjectures for the data points are constructed using their own variables, and
    they satisfy the counterexample. -/
structure Fits (T : Theory α) (conjectures : ConjectureMap) (ce : HornCounterexample α) : Prop where
  wellFormed : ∀ d ∈ ce.lhs ++ ce.rhs, ∀ c, conjectures d.predicate = some c → c.WellFormed
  holds : ce.Holds fun d => truthOn T conjectures d = some true

/-- The model of the negated clause violates the clause in which the predicates stand for
    their conjectures. -/
theorem checkChc_model (hcheck : check.Correct T)
    (hwf : ∀ f c, conjectures f = some c → c.WellFormed)
    (hrun : checkChc check chc conjectures = .ok (some ce)) :
    ∃ I : Interp α, (∀ decl ∈ chc.uninterpretedPredicates, ∃ c, conjectures decl = some c) ∧
      (chc.expr.eval T (withConjectures T conjectures chc.uninterpretedPredicates I) []).truth =
        false ∧
      ce = ⟨chc.predicatesInLhs.map (extractDatapoint fun t => t.eval T I []),
        chc.predicatesInRhs.map (extractDatapoint fun t => t.eval T I [])⟩ := by
  obtain ⟨e, he, ⟨_, hnone⟩ | ⟨eval, hsat, hsome⟩⟩ := checkChc_cases hrun
  · cases hnone
  · obtain ⟨I, _, htrue, heval⟩ := hcheck.sat _ _ hsat
    obtain rfl : eval = fun t => t.eval T I [] := funext heval
    refine ⟨I, substituteAll_some he, ?_, Option.some.inj hsome⟩
    rw [← eval_substituteAll hwf he]
    simpa [Op.eval] using htrue

/-- A counterexample is genuine. -/
theorem HornShaped.genuine (h : HornShaped chc) (hcheck : check.Correct T)
    (hwf : ∀ f c, conjectures f = some c → c.WellFormed)
    (hrun : checkChc check chc conjectures = .ok (some ce)) : Genuine T conjectures ce := by
  obtain ⟨I, hdefined, hviolated, rfl⟩ := checkChc_model hcheck hwf hrun
  obtain ⟨hlhs, hrhs⟩ := h.clause.violated h.collects hviolated
  have hvalue := fun a (ha : a ∈ chc.predicatesInLhs ++ chc.predicatesInRhs) hdecl =>
    truthOn_extractDatapoint (T := T) (I := I) (fun _ => rfl) hdecl hdefined
      (h.collects.arguments a ha)
  refine ⟨fun d hd => ?_, fun d hd => ?_⟩
  · obtain ⟨a, ha, rfl⟩ := List.mem_map.mp hd
    rw [hvalue a (List.mem_append_left _ ha) (hlhs a ha).1, (hlhs a ha).2]
  · obtain ⟨a, ha, rfl⟩ := List.mem_map.mp hd
    rw [hvalue a (List.mem_append_right _ ha) (hrhs a ha).1, (hrhs a ha).2]

/-- The predicates of a counterexample are those of its clause. -/
theorem HornShaped.points (h : HornShaped chc)
    (hrun : checkChc check chc conjectures = .ok (some ce)) :
    ∀ decl, decl ∈ chc.uninterpretedPredicates ↔ ∃ d ∈ ce.lhs ++ ce.rhs, d.predicate = decl := by
  obtain ⟨e, _, ⟨_, hnone⟩ | ⟨eval, _, hsome⟩⟩ := checkChc_cases hrun
  · cases hnone
  · obtain rfl := Option.some.inj hsome
    intro decl
    rw [h.proper.listed, ← List.map_append]
    constructor
    · rintro ⟨a, ha, rfl⟩
      exact ⟨_, List.mem_map_of_mem ha, rfl⟩
    · rintro ⟨d, hd, rfl⟩
      obtain ⟨a, ha, rfl⟩ := List.mem_map.mp hd
      exact ⟨a, ha, rfl⟩

/-- Conjectures that agree on the predicates of the clause with those for which the
    counterexample was found do not fit it. -/
theorem not_fits (hcheck : check.Correct T) (h : HornShaped chc)
    (hrun : checkChc check chc conjectures = .ok (some ce))
    (hagree : ∀ decl ∈ chc.uninterpretedPredicates, conjectures decl = conjectures' decl) :
    ¬ Fits T conjectures' ce := by
  intro hfits
  have hpoints := h.points hrun
  -- only the conjectures of the predicates of the clause matter
  let restricted : ConjectureMap := fun f =>
    if f ∈ chc.uninterpretedPredicates then conjectures f else none
  have hsame : ∀ decl ∈ chc.uninterpretedPredicates, conjectures decl = restricted decl :=
    fun decl hd => (if_pos hd).symm
  have hwf : ∀ f c, restricted f = some c → c.WellFormed := by
    intro f c hc
    by_cases hf : f ∈ chc.uninterpretedPredicates
    · obtain ⟨d, hd, rfl⟩ := (hpoints f).mp hf
      rw [← hsame _ hf, hagree _ hf] at hc
      exact hfits.wellFormed d hd c hc
    · simp [restricted, hf] at hc
  have hgenuine := h.genuine hcheck hwf ((checkChc_congr hsame).symm.trans hrun)
  have htruth : ∀ d ∈ ce.lhs ++ ce.rhs, truthOn T conjectures' d = truthOn T restricted d := by
    intro d hd
    have hlisted := (hpoints d.predicate).mpr ⟨d, hd, rfl⟩
    rw [truthOn, truthOn, ← hagree _ hlisted, hsame _ hlisted]
  obtain ⟨d, hd, htrue⟩ := hfits.holds fun d hd =>
    (htruth d (List.mem_append_left _ hd)).trans (hgenuine.1 d hd)
  rw [htruth d (List.mem_append_right _ hd), hgenuine.2 d hd] at htrue
  simp at htrue

/-! ## An honest learner -/

/-- The states at the head of the loop for a learner with these possible answers to the
    counterexamples that were added; `tried` has its answers so far. -/
inductive Head (answers : List (HornCounterexample α) → ConjectureMap → Prop) (check : Solver α)
    (p : Problem) : List ConjectureMap → LearnState α → Prop
  | start : Head answers check p [] (.initial p)
  | next {tried : List ConjectureMap} {s s' : LearnState α} {conjectures : ConjectureMap} :
    Head answers check p tried s → s.unsatisfiedChcs ≠ [] → answers s.counterexamples conjectures →
    iteration check conjectures s = .ok s' → Head answers check p (tried ++ [conjectures]) s'

variable {answers : List (HornCounterexample α) → ConjectureMap → Prop}
  {tried : List ConjectureMap} {s s' : LearnState α}

theorem Head.imp {answers' : List (HornCounterexample α) → ConjectureMap → Prop}
    (himp : ∀ ces conjectures, answers ces conjectures → answers' ces conjectures)
    (h : Head answers check p tried s) : Head answers' check p tried s := by
  induction h with
  | start => exact .start
  | next _ hne hanswer hrun ih => exact .next ih hne (himp _ _ hanswer) hrun

theorem Head.loopHead (hcovers : ∀ ces conjectures, answers ces conjectures → Covers p conjectures)
    (h : Head answers check p tried s) : LoopHead check p s := by
  induction h with
  | start => exact .start
  | next _ hne hanswer hrun ih => exact .next ih hne (hcovers _ _ hanswer) hrun

/-- The learner answers with conjectures for all relations that fit the recorded
    counterexamples. -/
structure Honest (T : Theory α) (p : Problem) (counterexamples : List (HornCounterexample α))
    (conjectures : ConjectureMap) : Prop where
  covers : Covers p conjectures
  fits : ∀ ce ∈ counterexamples, Fits T conjectures ce

theorem Head.honest (h : Head (Honest T p) check p tried s) : LoopHead check p s :=
  h.loopHead fun _ _ hanswer => hanswer.covers

/-- The counterexamples of a pass are those of its clauses. -/
theorem passLoop_counterexamples {moves : Verdict α → Bool} {l : List ConstraintedHornClause} :
    ∀ {r : Pass α}, passLoop check previous conjectures moves l = .ok r → ∀ ce,
      ce ∈ r.counterexamples ↔
        ∃ chc ∈ l, recheck check previous conjectures chc = .ok (.unsatisfied ce) := by
  induction l with
  | nil =>
    intro r h ce
    rw [← Except.ok.inj h]
    simp
  | cons chc rest ih =>
    intro r h ce
    obtain ⟨v, hv, h⟩ := bind_ok.mp h
    obtain ⟨r', hr', h⟩ := bind_ok.mp h
    rw [← Except.ok.inj h, List.mem_append, ih hr' ce]
    have hhead : ce ∈ v.counterexamples ↔ v = .unsatisfied ce := by
      cases v with
      | unchanged => simp [Verdict.counterexamples]
      | satisfied => simp [Verdict.counterexamples]
      | unsatisfied ce' => simp [Verdict.counterexamples, eq_comm]
    rw [hhead]
    simp [hv]

/-- No iteration was made yet, or every unsatisfied clause has a recorded counterexample
    for the previous conjectures. -/
def Witnessed (check : Solver α) (p : Problem) (s : LearnState α) : Prop :=
  s = .initial p ∨ ∀ chc ∈ s.unsatisfiedChcs, ∃ ce ∈ s.counterexamples,
    checkChc check chc s.previousConjectures = .ok (some ce)

/-- Some predicate of an unsatisfied clause has a new conjecture. -/
theorem Witnessed.changed (h : Witnessed check p s) (hcheck : check.Correct T)
    (hshape : ∀ chc ∈ p.chcs, HornShaped chc)
    (hrel : ∀ chc ∈ p.chcs, ∀ decl ∈ chc.uninterpretedPredicates, decl ∈ p.relations)
    (hhonest : Honest T p s.counterexamples conjectures) (hchc : chc ∈ s.unsatisfiedChcs)
    (hmem : chc ∈ p.chcs) :
    ∃ decl ∈ chc.uninterpretedPredicates, s.previousConjectures decl ≠ conjectures decl := by
  by_contra hno
  push Not at hno
  rcases h with rfl | hce
  · obtain ⟨decl, hd⟩ := List.exists_mem_of_ne_nil _ (hshape chc hmem).proper.nonempty
    have hsome := hhonest.covers decl (hrel chc hmem decl hd)
    rw [← hno decl hd] at hsome
    simp [LearnState.initial] at hsome
  · obtain ⟨ce, hrec, hrun⟩ := hce chc hchc
    exact not_fits hcheck (hshape chc hmem) hrun hno (hhonest.fits ce hrec)

/-- `has_changed` is set for a clause one of whose conjectures is new. -/
theorem hasChanged_true {decls : List Decl}
    (hsome : ∀ decl ∈ decls, (conjectures decl).isSome = true)
    (h : ∃ decl ∈ decls, previous decl ≠ conjectures decl) :
    hasChanged previous conjectures decls = .ok true := by
  induction decls with
  | nil => simp at h
  | cons decl rest ih =>
    obtain ⟨c, hc⟩ := Option.isSome_iff_exists.mp (hsome decl List.mem_cons_self)
    have hat : changedAt previous conjectures decl = .ok (decide (previous decl ≠ some c)) := by
      rw [changedAt, conjectureAt_ok.mpr hc]
      rfl
    rw [hasChanged, hat]
    by_cases hsame : previous decl = some c
    · have hrest : ∃ decl ∈ rest, previous decl ≠ conjectures decl := by
        obtain ⟨decl', hd, hne⟩ := h
        rcases List.mem_cons.mp hd with rfl | hd
        · exact absurd (hsame.trans hc.symm) hne
        · exact ⟨decl', hd, hne⟩
      simp only [hsame, ne_eq, not_true_eq_false, decide_false, bind, Except.bind]
      exact ih (fun d hd => hsome d (List.mem_cons_of_mem _ hd)) hrest
    · simp only [ne_eq, hsame, not_false_eq_true, decide_true, bind, Except.bind]
      rfl

/-! ## The invariant -/

/-- What one iteration for an honest learner preserves, and the counterexample for a
    clause that is not satisfied afterwards. -/
theorem iteration_witnessed (hcheck : check.Correct T) (hshape : ∀ chc ∈ p.chcs, HornShaped chc)
    (hrel : ∀ chc ∈ p.chcs, ∀ decl ∈ chc.uninterpretedPredicates, decl ∈ p.relations)
    (hinv : LearnInv check p s) (hw : Witnessed check p s)
    (hhonest : Honest T p s.counterexamples conjectures)
    (hrun : iteration check conjectures s = .ok s') :
    (∃ answers, s'.counterexamples = s.counterexamples ++ answers ∧
      ∀ chc ∈ s'.unsatisfiedChcs, chc ∈ p.chcs ∧
        ∃ ce ∈ answers, checkChc check chc s'.previousConjectures = .ok (some ce)) ∧
      s'.previousConjectures = conjectures := by
  obtain ⟨u, hu, hrun⟩ := bind_ok.mp hrun
  obtain ⟨v, hv, hrun⟩ := bind_ok.mp hrun
  obtain ⟨hpermU, hkeptU, _⟩ := passLoop_spec hu
  obtain ⟨hpermV, _, hmovedV⟩ := passLoop_spec hv
  rw [← Except.ok.inj hrun]
  refine ⟨⟨u.counterexamples ++ v.counterexamples, rfl, fun chc hchc => ?_⟩, rfl⟩
  rcases List.mem_append.mp hchc with hchc | hchc
  · obtain ⟨w, hw', hkeep⟩ := hkeptU chc hchc
    have hunsat : chc ∈ s.unsatisfiedChcs := hpermU.subset (List.mem_append_left _ hchc)
    have hmem : chc ∈ p.chcs := hinv.perm.subset (List.mem_append_right _ hunsat)
    refine ⟨hmem, ?_⟩
    rcases recheck_cases hw' with ⟨_, hsame⟩ | ⟨rfl, _⟩ | ⟨ce, rfl, hce⟩
    · obtain ⟨decl, hd, hne⟩ := hw.changed hcheck hshape hrel hhonest hunsat hmem
      exact absurd (hsame decl hd) hne
    · simp at hkeep
    · exact ⟨ce, List.mem_append_left _ ((passLoop_counterexamples hu ce).mpr ⟨chc, hunsat, hw'⟩),
        hce⟩
  · obtain ⟨w, hw', hmove⟩ := hmovedV chc hchc
    have hsat : chc ∈ s.satisfiedChcs := hpermV.subset (List.mem_append_right _ hchc)
    refine ⟨hinv.perm.subset (List.mem_append_left _ hsat), ?_⟩
    rcases recheck_cases hw' with ⟨rfl, _⟩ | ⟨rfl, _⟩ | ⟨ce, rfl, hce⟩
    · simp at hmove
    · simp at hmove
    · exact ⟨ce, List.mem_append_right _ ((passLoop_counterexamples hv ce).mpr ⟨chc, hsat, hw'⟩),
        hce⟩

/-- While a clause is not satisfied, the answers and the counterexamples are a session in
    which every answer is refuted. -/
theorem Head.inv (hcheck : check.Correct T) (hshape : ∀ chc ∈ p.chcs, HornShaped chc)
    (hrel : ∀ chc ∈ p.chcs, ∀ decl ∈ chc.uninterpretedPredicates, decl ∈ p.relations)
    (h : Head (Honest T p) check p tried s) : Witnessed check p s ∧
      (s.unsatisfiedChcs ≠ [] → Ice.Session (Fits T) (Honest T p) tried s.counterexamples) := by
  induction h with
  | start => exact ⟨.inl rfl, fun _ => .start⟩
  | next hhead hne hhonest hrun ih =>
    obtain ⟨⟨answers, hces, hunsat⟩, rfl⟩ :=
      iteration_witnessed hcheck hshape hrel hhead.honest.inv ih.1 hhonest hrun
    refine ⟨.inr fun chc hchc => ?_, fun hopen => ?_⟩
    · obtain ⟨ce, hce, hrun⟩ := (hunsat chc hchc).2
      exact ⟨ce, hces ▸ List.mem_append_right _ hce, hrun⟩
    · obtain ⟨chc, hchc⟩ := List.exists_mem_of_ne_nil _ hopen
      obtain ⟨hmem, ce, hce, hviolated⟩ := hunsat chc hchc
      rw [hces]
      refine (ih.2 hne).round hhonest ⟨ce, hce, ?_⟩
      exact not_fits hcheck (hshape chc hmem) hviolated fun _ _ => rfl

/-- No answer of an honest learner is repeated. -/
theorem Head.nodup (hcheck : check.Correct T) (hshape : ∀ chc ∈ p.chcs, HornShaped chc)
    (hrel : ∀ chc ∈ p.chcs, ∀ decl ∈ chc.uninterpretedPredicates, decl ∈ p.relations)
    (h : Head (Honest T p) check p tried s) : tried.Nodup := by
  cases h with
  | start => exact List.nodup_nil
  | next hhead hne hhonest hrun =>
    have hpick : Ice.Consistent (Fits T) (Honest T p) := fun _ _ h => h.fits
    exact (((hhead.inv hcheck hshape hrel).2 hne).nodup_next hpick).2 _ hhonest

/-- What an answer of the learner brings about: every unsatisfied clause is checked again,
    the answer is a new one, and a finite set that contains the answers has room for it. -/
structure Advances (tried : List ConjectureMap) (s : LearnState α) (conjectures : ConjectureMap) :
    Prop where
  rechecked : ∀ chc ∈ s.unsatisfiedChcs,
    hasChanged s.previousConjectures conjectures chc.uninterpretedPredicates = .ok true
  nodup : (tried ++ [conjectures]).Nodup
  room : ∀ space : Finset ConjectureMap, (∀ c ∈ tried ++ [conjectures], c ∈ space) →
    tried.length < space.card

/-- Every answer of an honest learner advances the loop. -/
theorem learn2_progress (T : Theory α) (check : Solver α) (hcheck : check.Correct T)
    (fp : Fixedpoint) (p : Problem) (hparse : parse fp = .ok p)
    (hshape : ∀ chc ∈ p.chcs, HornClause chc.expr) (tried : List ConjectureMap) (s : LearnState α)
    (hhead : Head (Honest T p) check p tried s) (hopen : s.unsatisfiedChcs ≠ [])
    (conjectures : ConjectureMap) (hhonest : Honest T p s.counterexamples conjectures) :
    Advances tried s conjectures := by
  have hclauses : ∀ chc ∈ p.chcs, HornShaped chc :=
    fun chc hchc => ⟨parse_clause hparse hchc, hshape chc hchc⟩
  have hrel : ∀ chc ∈ p.chcs, ∀ decl ∈ chc.uninterpretedPredicates, decl ∈ p.relations :=
    fun _ hchc => parse_predicates hparse hchc
  obtain ⟨hw, hsession⟩ := hhead.inv hcheck hclauses hrel
  have hpick : Ice.Consistent (Fits T) (Honest T p) := fun _ _ h => h.fits
  refine ⟨fun chc hchc => ?_, ((hsession hopen).nodup_next hpick).2 _ hhonest,
    (hsession hopen).length_lt_card hpick hhonest⟩
  have hmem : chc ∈ p.chcs := hhead.honest.inv.perm.subset (List.mem_append_right _ hchc)
  exact hasChanged_true (fun decl hd => hhonest.covers decl (hrel chc hmem decl hd))
    (hw.changed hcheck hclauses hrel hhonest hchc hmem)

/-! ## An iteration returns -/

/-- The solver does not answer unknown. -/
def Solver.Decides (check : Solver α) : Prop := ∀ φ, check φ ≠ .unknown

theorem hasChanged_returns {decls : List Decl}
    (hsome : ∀ decl ∈ decls, (conjectures decl).isSome = true) :
    ∃ b, hasChanged previous conjectures decls = .ok b := by
  by_cases h : ∃ decl ∈ decls, previous decl ≠ conjectures decl
  · exact ⟨true, hasChanged_true hsome h⟩
  · push Not at h
    refine ⟨false, ?_⟩
    induction decls with
    | nil => rfl
    | cons decl rest ih =>
      obtain ⟨c, hc⟩ := Option.isSome_iff_exists.mp (hsome decl List.mem_cons_self)
      have hat : changedAt previous conjectures decl = .ok false := by
        rw [changedAt, conjectureAt_ok.mpr hc]
        show Except.ok (decide (previous decl ≠ some c)) = _
        rw [h decl List.mem_cons_self, hc]
        simp
      rw [hasChanged, hat]
      exact ih (fun d hd => hsome d (List.mem_cons_of_mem _ hd))
        fun d hd => h d (List.mem_cons_of_mem _ hd)

theorem checkChc_returns (hdecides : check.Decides) (hexpr : Expression chc.expr)
    (hconj : Conjectured conjectures chc.uninterpretedPredicates) :
    ∃ r, checkChc check chc conjectures = .ok r := by
  obtain ⟨e, he, -⟩ := substituteAll_returns hexpr hconj
  unfold checkChc
  simp only [he, bind, Except.bind]
  cases hres : check (.op .not [e]) with
  | unsat => exact ⟨_, rfl⟩
  | unknown => exact absurd hres (hdecides _)
  | sat eval => exact ⟨_, rfl⟩

theorem recheck_returns (hdecides : check.Decides) (hexpr : Expression chc.expr)
    (hconj : Conjectured conjectures chc.uninterpretedPredicates) :
    ∃ v, recheck check previous conjectures chc = .ok v := by
  obtain ⟨b, hb⟩ : ∃ b, hasChanged previous conjectures chc.uninterpretedPredicates = .ok b :=
    hasChanged_returns fun decl hd => by
      obtain ⟨c, hc, -⟩ := hconj decl hd
      exact Option.isSome_iff_exists.mpr ⟨c, hc⟩
  obtain ⟨r, hr⟩ := checkChc_returns hdecides hexpr hconj
  unfold recheck
  simp only [hb, bind, Except.bind]
  cases b with
  | false => exact ⟨_, rfl⟩
  | true =>
    simp only [hr]
    cases r with
    | none => exact ⟨_, rfl⟩
    | some ce => exact ⟨_, rfl⟩

theorem passLoop_returns {moves : Verdict α → Bool} {l : List ConstraintedHornClause}
    (h : ∀ chc ∈ l, ∃ v, recheck check previous conjectures chc = .ok v) :
    ∃ r, passLoop check previous conjectures moves l = .ok r := by
  induction l with
  | nil => exact ⟨_, rfl⟩
  | cons chc rest ih =>
    obtain ⟨v, hv⟩ := h chc List.mem_cons_self
    obtain ⟨r, hr⟩ := ih fun chc' hc => h chc' (List.mem_cons_of_mem _ hc)
    rw [passLoop]
    simp only [hv, hr, bind, Except.bind]
    exact ⟨_, rfl⟩

/-- An iteration returns for conjectures that can be substituted in every clause. -/
theorem iteration_returns (hinv : LearnInv check p s) (hdecides : check.Decides)
    (hexpr : ∀ chc ∈ p.chcs, Expression chc.expr)
    (hconj : ∀ chc ∈ p.chcs, Conjectured conjectures chc.uninterpretedPredicates) :
    ∃ s', iteration check conjectures s = .ok s' := by
  have hrecheck : ∀ chc ∈ p.chcs, ∃ v, recheck check s.previousConjectures conjectures chc =
    .ok v := fun chc hchc => recheck_returns hdecides (hexpr chc hchc) (hconj chc hchc)
  obtain ⟨u, hu⟩ : ∃ u, checkUnsatisfied check s.previousConjectures conjectures s.unsatisfiedChcs =
      .ok u :=
    passLoop_returns fun chc hchc => hrecheck chc (hinv.perm.subset (List.mem_append_right _ hchc))
  obtain ⟨v, hv⟩ : ∃ v, checkSatisfied check s.previousConjectures conjectures s.satisfiedChcs =
    .ok v :=
    passLoop_returns fun chc hchc => hrecheck chc (hinv.perm.subset (List.mem_append_left _ hchc))
  unfold iteration
  simp only [hu, hv, bind, Except.bind]
  exact ⟨_, rfl⟩

/-! ## The fact `flag` -/

/-- The rule `flag`. -/
def flagRule : Fixedpoint where
  rules := [.app ⟨.str "flag", [], .bool⟩ []]
  queries := []
  wellFormed := by simp [Term.wellFormed, Term.wellFormedList_eq, Decl.arity]
  rules_formulas := by simp [isFormula]

/-- The conjecture `b` for `flag@`. -/
def flagConjecture (b : Bool) : ConjectureMap := fun f =>
  if f = flag then some ⟨.op (.bool b) [], [⟨.str "flag@#0", [], .bool⟩]⟩ else none

/-- The counterexample for the conjecture false. -/
def flagTrue : HornCounterexample Unit := ⟨[], [⟨flag, [.bool true]⟩]⟩

/-- The state after the conjecture false. -/
def flagRefuted : LearnState Unit := ⟨[], [flagFact], flagConjecture false, [flagTrue]⟩

theorem parse_flagRule : parse flagRule = .ok ⟨[flag], [flagFact]⟩ := rfl

theorem checkChc_flagFact :
    checkChc constantSolver flagFact (flagConjecture false) = .ok (some flagTrue) := by
  have hsub : substituteAll (flagConjecture false) [flag] flagFact.expr =
    .ok (.op (.bool false) []) := rfl
  have hsat : constantSolver (.op .not [.op (.bool false) []]) =
      .sat fun t => t.eval arithmetic zeros [] := by
    simp [constantSolver]
  rw [checkChc, show flagFact.uninterpretedPredicates = [flag] from rfl, hsub]
  simp [bind, Except.bind, hsat, flagFact, extractDatapoint, flagTrue, pure, Except.pure, Op.eval]

theorem iteration_flagFact :
    iteration constantSolver (flagConjecture false) (.initial ⟨[flag], [flagFact]⟩) =
      .ok flagRefuted := by
  have hrecheck : recheck constantSolver (fun _ => none) (flagConjecture false) flagFact =
      .ok (.unsatisfied flagTrue) := by
    rw [recheck, checkChc_flagFact]
    rfl
  rw [iteration, show (LearnState.initial ⟨[flag], [flagFact]⟩ : LearnState Unit) =
    ⟨[], [flagFact], fun _ => none, []⟩ from rfl]
  simp only [checkUnsatisfied, checkSatisfied, passLoop, hrecheck]
  rfl

theorem covers_flagConjecture (b : Bool) : Covers ⟨[flag], [flagFact]⟩ (flagConjecture b) := by
  simp [Covers, flagConjecture]

/-- The conjecture true after the conjecture false. -/
theorem learn2_progress_flagFact : Advances [flagConjecture false] flagRefuted
    (flagConjecture true) := by
  have hstart : Honest arithmetic ⟨[flag], [flagFact]⟩
      (LearnState.initial ⟨[flag], [flagFact]⟩ : LearnState Unit).counterexamples
      (flagConjecture false) :=
    ⟨covers_flagConjecture false, by simp [LearnState.initial]⟩
  refine learn2_progress arithmetic constantSolver constantSolver_correct flagRule _ parse_flagRule
    ?_
    _ _ (.next .start (by simp [LearnState.initial]) hstart iteration_flagFact)
    (by simp [flagRefuted]) _ ⟨covers_flagConjecture true, ?_⟩
  · intro chc hchc
    rw [List.mem_singleton.mp hchc]
    exact .fact Nat.one_pos (by simp [Constraint])
  · intro ce hce
    rw [List.mem_singleton.mp hce]
    refine ⟨fun d hd c hc => ?_, fun _ => ⟨_, List.mem_singleton_self _, ?_⟩⟩
    · obtain rfl := List.mem_singleton.mp hd
      obtain rfl := Option.some.inj hc
      rfl
    · simp [truthOn, flagConjecture, Conjecture.value, Op.eval]

end HiceDt.Smt
