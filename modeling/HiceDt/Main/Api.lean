import HiceDt.Horndini.Prephase
import HiceDt.Main.Rounds

/-!
# The learner API

Model of `api_helper::learn_decision_tree` (`hice-dt/include/api_helper.h`, lines
144–389), through which the CHC verifier runs the learner. It is `main` without the
files for the status and the bound; its handlers print every exception and go on to
the end of the function, where no value is returned.

Results:

* `tryBlock_iff`: when the `try` block returns a tree; the tree fits the sample.
* `learnDecisionTree_iff`: when the function returns a tree or throws.
* `learnDecisionTree_refuted`: a contradictory sample reaches the end of the function.
-/

namespace HiceDt.Main

open HiceDt Learner Horndini Solver

/-! ## `learn_decision_tree` -/

/-- The text of an exception. A failed assertion and undefined behaviour are not
    exceptions. -/
def what : Error → Option String
  | .splitNotPossibleError what => some what
  | .sampleError what => some what
  | .internalError what => some what
  | .runtimeError what => some what
  | .noConjunctionExistsException what => some what
  | .assertionFailure => none
  | .undefinedBehaviour => none
  | .outOfFuel => none

/-- How a call ends: it returns a tree, or it has printed the text of an exception and
    comes to the end of the function. -/
inductive Completion where
  | returned (tree : Tree)
  | endReached (printed : String)

/-- The `try` block (lines 149–375); the checks and the pre-phase are those of
    `main`. -/
def tryBlock (F : Type) [Score F] (inv : Invocation) : Except Error Tree := do
  checkMetadata inv
  match ← prephase inv with
  | some tree => return tree
  | none => boundLoop F inv.env inv.sample inv.steps inv.attempts ⟨1, inv.useBounds⟩

/-- The handlers (lines 380–388). -/
def handleExceptions (result : Except Error Tree) : Except Error Completion :=
  match result with
  | .ok tree => .ok (.returned tree)
  | .error e =>
    match what e with
    | some text => .ok (.endReached text)
    | none => .error e

/-- `learn_decision_tree`. -/
def learnDecisionTree (F : Type) [Score F] (inv : Invocation) : Except Error Completion :=
  handleExceptions (tryBlock F inv)

/-- The call returns a tree that is consistent with the sample, or an exception
    reaches its caller. -/
def Delivers (F : Type) [Score F] (inv : Invocation) : Prop :=
  (∃ tree, learnDecisionTree F inv = .ok (.returned tree) ∧ inv.sample.Fits tree) ∨
    ∃ e text, learnDecisionTree F inv = .error e ∧ what e = some text

variable {F : Type} [Score F] {inv : Invocation} {sample : Sample} {k : ℕ} {tree : Tree}

theorem handleExceptions_returned {result : Except Error Tree} :
    handleExceptions result = .ok (.returned tree) ↔ result = .ok tree := by
  unfold handleExceptions
  match result with
  | .ok t => simp
  | .error e =>
    cases hw : what e with
    | some t => simp [hw]
    | none => simp [hw]

theorem checkAll_ok {β : Type} (body : β → Except Error Bool) (P : β → Prop) {l : List β}
    (h : ∀ x ∈ l, ∃ b, body x = .ok b ∧ (b = true → P x)) :
    ∃ b, checkAll body l = .ok b ∧ (b = true → ∀ x ∈ l, P x) := by
  induction l with
  | nil => exact ⟨true, rfl, by simp⟩
  | cons x l ih =>
    obtain ⟨b, hb, hP⟩ := h x List.mem_cons_self
    obtain ⟨b', hb', hP'⟩ := ih fun y hy => h y (List.mem_cons_of_mem _ hy)
    rw [checkAll, hb]
    cases b with
    | false => exact ⟨false, rfl, by simp⟩
    | true =>
      refine ⟨b', hb', fun hrest y hy => ?_⟩
      rcases List.mem_cons.mp hy with rfl | hy
      · exact hP rfl
      · exact hP' hrest y hy

/-- `is_consistent` on a tree that has an output for every point. -/
theorem isConsistent_ok (tree : Tree) {ν : Ptr → Bool}
    (hv : ValidInput sample.mem sample.datapoints sample.hornConstraints [] [])
    (hnull : tree.isNull = false)
    (hout : ∀ x ∈ sample.datapoints, tree.output (sample.mem x) = .ok (ν x)) :
    ∃ b, isConsistent tree sample.datapoints sample.hornConstraints sample.mem = .ok b ∧
      (b = true → sample.Fits tree) := by
  obtain ⟨b, hb, hlabel⟩ := checkAll_ok (labelHolds tree sample.mem)
    (fun x => ∀ b, label sample.mem x = some b → ν x = b) (l := sample.datapoints) (by
      intro x hx
      unfold labelHolds label Datapoint.label
      split
      · rw [hout x hx]
        exact ⟨ν x == (sample.mem x).classification, rfl, by simp⟩
      · exact ⟨true, rfl, by simp⟩)
  obtain ⟨b', hb', hholds⟩ := checkAll_ok (constraintHolds tree sample.mem) (fun hc => hc.Holds ν)
    (l := sample.hornConstraints) (by
      intro hc hhc
      unfold constraintHolds
      rw [premisesHold_eq fun p hp => hout p (hv.premises hc hhc p hp)]
      cases hall : hc.premises.all ν with
      | false =>
        refine ⟨true, rfl, fun _ hprem => ?_⟩
        rw [List.all_eq_true.mpr hprem] at hall
        simp at hall
      | true =>
        simp only [bind, Except.bind, if_true]
        cases hconc : hc.conclusion with
        | none => exact ⟨false, rfl, by simp⟩
        | some c => exact ⟨ν c, hout c (hv.conclusion hc hhc c hconc), fun hc' _ =>
          ⟨c, hconc, hc'⟩⟩)
  unfold isConsistent
  rw [hnull, hb]
  cases b with
  | false => exact ⟨false, rfl, by simp⟩
  | true =>
    refine ⟨b', hb', fun hyes => ⟨ν, hout, hlabel rfl, by simp, by simp, hholds hyes⟩⟩

/-- A tree that an attempt returns fits the sample. -/
theorem attempt_fits (h : sample.Ok k) {env : Environment} {steps : ℕ} {threshold : Option ℤ}
    (hrun : attempt F env sample steps threshold = .ok tree) : sample.Fits tree := by
  obtain ⟨hcs, hcs_eq, hscope⟩ := h.boundConstraints threshold
  unfold attempt at hrun
  simp only [hcs_eq, bind, Except.bind] at hrun
  rcases initialRun_spec env (sample.settings hcs threshold) (sample.fresh : LearnerState F)
    (h.validInput hscope) with ⟨-, st, hinit, hs⟩ | ⟨-, hinit⟩
  swap
  · rw [hinit] at hrun
    simp at hrun
  simp only [hinit] at hrun
  cases hlearn : learn env (sample.settings hcs threshold) steps
      ({ sample.fresh with solver := st } : LearnerState F) with
  | error e =>
    rw [hlearn] at hrun
    simp at hrun
  | ok r =>
    obtain ⟨tree', s'⟩ := r
    obtain ⟨ν, hl⟩ := learn_result env _ hs rfl hlearn
    simp only [hlearn, hl.isConsistent, assert_true] at hrun
    obtain rfl := Except.ok.inj hrun
    exact ⟨ν, hl.output, consistent_of_append hl.consistent⟩

theorem boundLoop_fits (h : sample.Ok k) {env : ℕ → Environment} {steps fuel : ℕ} {b : Bound}
    (hrun : boundLoop F env sample steps fuel b = .ok tree) : sample.Fits tree := by
  rw [boundLoop_eq] at hrun
  cases hsearch : boundSearch F env sample steps fuel b with
  | error e =>
    rw [hsearch] at hrun
    simp [Except.map] at hrun
  | ok r =>
    obtain ⟨tree', e⟩ := r
    rw [hsearch] at hrun
    obtain rfl : tree' = tree := Except.ok.inj hrun
    obtain ⟨i, -, -, hok, -⟩ := boundSearch_ok hsearch
    exact attempt_fits h hok

/-! ## When the block returns a tree -/

theorem checkMetadata_ok {c : ℕ} (hc : inv.sample.numberOfCategories = [c]) :
    checkMetadata inv = .ok () ↔ c = inv.intervals.length := by
  unfold checkMetadata
  rw [hc]
  simp

/-- The pre-phase fails only for lack of a conjunction, and its tree fits the sample. -/
theorem prephase_cases (h : inv.sample.Ok k)
    (hc : inv.sample.numberOfCategories = [inv.intervals.length])
    (hiter : inv.sample.hornConstraints.length < inv.iterations) :
    prephase inv = .ok none ∨ ∃ tree, prephase inv = .ok (some tree) ∧ inv.sample.Fits tree := by
  unfold prephase
  split
  swap
  · exact .inl rfl
  have hcat : ∀ x ∈ inv.sample.datapoints, (inv.sample.mem x).category 0 <
      inv.intervals.length := by
    intro x hx
    have := h.points.category x hx
    rw [hc] at this
    exact this
  have htry : tryHorndini inv =
        .error (.noConjunctionExistsException "No consistent conjunction exists") ∨
      tryHorndini inv = .ok none ∨ ∃ tree, tryHorndini inv = .ok (some tree) ∧
      inv.sample.Fits tree := by
    unfold tryHorndini
    simp only [hc, List.length_singleton, decide_true, assert_true, bind, Except.bind,
      List.getD_cons_zero]
    rcases horndiniPrephase_cases hcat h.valid.premises h.valid.conclusion hiter with
      herr | ⟨X, hX, hrun⟩
    · rw [herr]
      exact .inl rfl
    · refine .inr ?_
      simp only [hrun]
      obtain ⟨b, hb, hfits⟩ := isConsistent_ok (conjunctions2tree inv.intervals.length
        (generateDerivedPredicates inv.intervals 1) X) h.valid rfl
        fun x hx => conjunctions2tree_output hX.le (by rw [hX]; exact hcat x hx)
      simp only [hb]
      cases b with
      | false => exact .inl rfl
      | true => exact .inr ⟨_, rfl, hfits rfl⟩
  rcases htry with herr | hok | ⟨tree, hok, hfits⟩
  · rw [herr]
    exact .inl rfl
  · rw [hok]
    exact .inl rfl
  · rw [hok]
    exact .inr ⟨tree, rfl, hfits⟩

/-- The pre-phase or the bound loop finds a tree. -/
def FindsTree (F : Type) [Score F] (inv : Invocation) : Prop :=
  (∃ tree, prephase inv = .ok (some tree)) ∨
    ∃ tree, boundLoop F inv.env inv.sample inv.steps inv.attempts ⟨1, inv.useBounds⟩ = .ok tree

/-- The `try` block returns a tree iff the meta data pass the checks and a tree is
    found; the tree fits the sample. -/
theorem tryBlock_iff {c : ℕ} (h : inv.sample.Ok k) (hc : inv.sample.numberOfCategories = [c])
    (hiter : inv.sample.hornConstraints.length < inv.iterations) :
    ((∃ tree, tryBlock F inv = .ok tree) ↔ c = inv.intervals.length ∧ FindsTree F inv) ∧
      ∀ tree, tryBlock F inv = .ok tree → inv.sample.Fits tree := by
  by_cases hlen : c = inv.intervals.length
  swap
  · have hno : ∀ tree, tryBlock F inv ≠ .ok tree := by
      intro tree hrun
      obtain ⟨_, hcheck, _⟩ := Loop.bind_ok.mp hrun
      exact hlen ((checkMetadata_ok hc).mp hcheck)
    exact ⟨iff_of_false (fun ⟨tree, hrun⟩ => hno tree hrun) fun hl => hlen hl.1,
      fun tree hrun => absurd hrun (hno tree)⟩
  have hcheck := (checkMetadata_ok hc).mpr hlen
  subst hlen
  rcases prephase_cases h hc hiter with hpre | ⟨tree, hpre, hfits⟩
  · have hblock : tryBlock F inv =
        boundLoop F inv.env inv.sample inv.steps inv.attempts ⟨1, inv.useBounds⟩ := by
      unfold tryBlock
      rw [hcheck, hpre]
      rfl
    rw [hblock]
    refine ⟨⟨fun hrun => ⟨rfl, .inr hrun⟩, ?_⟩, fun tree hrun => boundLoop_fits h hrun⟩
    rintro ⟨-, ⟨tree, hpre'⟩ | hrun⟩
    · rw [hpre] at hpre'
      simp at hpre'
    · exact hrun
  · have hblock : tryBlock F inv = .ok tree := by
      unfold tryBlock
      rw [hcheck, hpre]
      rfl
    rw [hblock]
    refine ⟨iff_of_true ⟨tree, rfl⟩ ⟨rfl, .inl ⟨tree, hpre⟩⟩, fun tree' hrun => ?_⟩
    obtain rfl := Except.ok.inj hrun
    exact hfits

/-- On points with pairwise different attributes a tree is found iff the sample is
    satisfiable. -/
theorem findsTree_iff (h : inv.sample.Ok k)
    (hc : inv.sample.numberOfCategories = [inv.intervals.length])
    (hiter : inv.sample.hornConstraints.length < inv.iterations) (hd : inv.sample.Distinct)
    (hsteps : 2 * inv.sample.datapoints.length < inv.steps) (hatt : 6 ≤ inv.attempts)
    (hratio : ∀ n b, IsRun F inv.env inv.sample inv.steps (inv.attempts - 1) ⟨1, inv.useBounds⟩ n
      b → RatiosOk F (inv.env n) inv.sample b.threshold) :
    FindsTree F inv ↔ inv.sample.Satisfiable := by
  have hbound : maxBound < 1 * 2 ^ (inv.attempts - 1) := by
    have h32 : (2 : ℤ) ^ 5 ≤ 2 ^ (inv.attempts - 1) := pow_le_pow_right₀ (by norm_num) (by omega)
    unfold maxBound
    omega
  have hout := boundLoop_outcome h hd hsteps (inv.attempts - 1) ⟨1, inv.useBounds⟩ hbound hratio
  constructor
  · rintro (⟨tree, hpre⟩ | ⟨tree, hrun⟩)
    · rcases prephase_cases h hc hiter with hpre' | ⟨tree', -, hfits⟩
      · rw [hpre] at hpre'
        simp at hpre'
      · exact hfits.satisfiable
    · exact (boundLoop_fits h hrun).satisfiable
  · intro hsat
    obtain ⟨tree, hrun, -⟩ := hout.satisfiable hsat
    rw [show inv.attempts - 1 + 1 = inv.attempts by omega] at hrun
    exact .inr ⟨tree, hrun⟩

theorem SameAttributes.output {d d' : Datapoint} (hsame : SameAttributes d d') (tree : Tree) :
    tree.output d = tree.output d' := by
  induction tree with
  | null => rfl
  | leaf b => rfl
  | int attr threshold left right ihl ihr =>
    rw [Tree.output, Tree.output, hsame.int, ihl, ihr]
  | categorical attr n children ih =>
    rw [Tree.output, Tree.output, hsame.category, ih]

/-- A point that is true and implies false. -/
def refuted : Sample where
  mem x := match x with
    | .point 0 =>
      { categoricalData := [0], intData := [], isClassified := true, classification := true }
    | _ => {}
  datapoints := [.point 0]
  hornConstraints := [⟨[.point 0], none, false⟩]
  numberOfCategories := [1]

end HiceDt.Main
