import HiceDt.Lib.Loop
import HiceDt.Learner.JobManager

/-!
# The candidates of `find_best_split`

`find_best_split` (`hice-dt/include/simple_job_manager.h`, lines 1550–1985) computes
the score of one candidate after the other and keeps the best ones in four groups of
variables. Here the candidates are listed first, and then the best one is selected.

Results:

* `findBestSplit_eq`: both ways are the same.
* `IntBest.all_spec`: what the variables for the integer candidates hold at the end,
  whatever the scores are.
* `select_eq`: the job that is selected.
-/

namespace HiceDt.Learner

open HiceDt Score Loop Machine

variable {F : Type} [Score F]

/-! ## Candidates -/

/-- A categorical attribute with several categories in the slice. -/
structure CategoricalCandidate (F : Type) where
  attr : ℕ
  gainRatio : F

/-- The best cut of an integer attribute, with its information gain less the cost of
    the threshold and its intrinsic value. -/
structure IntCandidate (F : Type) where
  attr : ℕ
  threshold : ℤ
  gain : F
  intrinsicValue : F

/-- The candidate of a categorical attribute by which the slice is sorted (lines
    1589–1640). -/
def categoricalCandidate (cfg : Settings) (s : LearnerState F) (sl : Slice) (attr : ℕ) :
    Except Error (List (CategoricalCandidate F)) := do
  match ← categoryLoop cfg s sl attr sl.leftIndex (ofInt 0) (ofInt 0) with
  | none => return []
  | some (totalWeightedEntropy, totalIntrinsicValue) =>
    let n := numClassifiedPoints cfg s sl.leftIndex sl.rightIndex
    let e ← entropy cfg s sl.leftIndex sl.rightIndex
    let infoGain := if n = 0 then e else sub e (div totalWeightedEntropy (ofInt n))
    assert (lt (ofInt 0) totalIntrinsicValue)
    return [⟨attr, div infoGain totalIntrinsicValue⟩]

/-- The candidates of the categorical attributes; the slice is sorted by each of
    them. -/
def categoricalCandidates (env : Environment) (cfg : Settings) (sl : Slice) :
    List ℕ → LearnerState F → Except Error (LearnerState F × List (CategoricalCandidate F))
  | [], s => .ok (s, [])
  | attr :: rest, s => do
    let s := s.sortSlice env (fun d => d.category attr) sl
    let c ← categoricalCandidate cfg s sl attr
    let (s', cs) ← categoricalCandidates env cfg sl rest s
    return (s', c ++ cs)

/-- The candidate for the best cut of an attribute, if there is one. -/
def intCandidate (cfg : Settings) (s : LearnerState F) (sl : Slice) (attr tries : ℕ) (c : Cut F) :
    Except Error (List (IntCandidate F)) :=
  if c.possible then do
    let gain ← cutGain cfg s sl attr tries c
    return [⟨attr, (s.point c.splitIndex).int attr, gain, c.intrinsicValue⟩]
  else .ok []

/-- The candidates of an integer attribute by which the slice is sorted: its best cut,
    and its best conjunctive cut if these are preferred. -/
def attributeCandidates (cfg : Settings) (s : LearnerState F) (sl : Slice) (attr : ℕ) :
    Except Error (List (IntCandidate F) × List (IntCandidate F)) := do
  let cs ← cutLoop cfg s sl attr sl.leftIndex ⟨0, .initial, .initial⟩
  let conjs ← if cfg.conjunctiveSetting = .preferenceForConjuncts then
      intCandidate cfg s sl attr cs.tries cs.conjCut
    else .ok []
  let cuts ← intCandidate cfg s sl attr cs.tries cs.cut
  return (cuts, conjs)

/-- The candidates of the integer attributes. -/
def intCandidates (env : Environment) (cfg : Settings) (sl : Slice) : List ℕ → LearnerState F →
    Except Error (LearnerState F × List (IntCandidate F) × List (IntCandidate F))
  | [], s => .ok (s, [], [])
  | attr :: rest, s => do
    let s := s.sortSlice env (fun d => d.int attr) sl
    let (cuts, conjs) ← attributeCandidates cfg s sl attr
    let (s', cuts', conjs') ← intCandidates env cfg sl rest s
    return (s', cuts ++ cuts', conjs ++ conjs')

/-- All candidates, and the state after computing them. -/
structure Candidates (F : Type) where
  state : LearnerState F
  categorical : List (CategoricalCandidate F)
  cuts : List (IntCandidate F)
  conjunctive : List (IntCandidate F)

/-- The candidates of `find_best_split`: one for each categorical attribute with several
    categories, and the best cuts of each integer attribute. -/
def candidates (env : Environment) (cfg : Settings) (sl : Slice) (s : LearnerState F) :
    Except Error (Candidates F) := do
  let (s₁, cats) ← categoricalCandidates env cfg sl
    (List.range (s.point sl.leftIndex).categoricalData.length) s
  let (s₂, cuts, conjs) ← intCandidates env cfg sl
    (List.range (s₁.point sl.leftIndex).intData.length) s₁
  return ⟨s₂, cats, cuts, conjs⟩

/-! ## Selection -/

/-- Compare a candidate with the best categorical split so far (lines 1641–1647). -/
def CategoricalBest.consider (b : CategoricalBest F) (c : CategoricalCandidate F) :
    CategoricalBest F :=
  if !b.splitPossible || lt b.gainRatio c.gainRatio then
    { splitPossible := true, gainRatio := c.gainRatio, attr := c.attr }
  else b

/-- The best of all categorical candidates. -/
def CategoricalBest.all (cs : List (CategoricalCandidate F)) : CategoricalBest F :=
  cs.foldl CategoricalBest.consider { gainRatio := ofInt (-1000000) }

/-- Compare a candidate with the best integer split so far. -/
def IntBest.take (b : IntBest F) (c : IntCandidate F) : IntBest F :=
  b.consider c.gain c.intrinsicValue c.attr c.threshold

/-- The best of all integer candidates. -/
def IntBest.all (cs : List (IntCandidate F)) : IntBest F := cs.foldl IntBest.take .initial

/-- The selection among the candidates. -/
def Candidates.select (cfg : Settings) (sl : Slice) (c : Candidates F) : Except Error Job :=
  chooseSplit cfg sl (.all c.categorical) (.all c.cuts) (.all c.conjunctive)

/-! ## `find_best_split` selects among the candidates -/

theorem categoricalAttribute_eq (env : Environment) (cfg : Settings) (sl : Slice)
    (s : LearnerState F) (best : CategoricalBest F) (attr : ℕ) :
    categoricalAttribute env cfg sl (s, best) attr = do
      let c ← categoricalCandidate cfg (s.sortSlice env (fun d => d.category attr) sl) sl attr
      return (s.sortSlice env (fun d => d.category attr) sl,
        c.foldl CategoricalBest.consider best) := by
  unfold categoricalAttribute categoricalCandidate
  simp only [bind, Except.bind]
  cases categoryLoop cfg (s.sortSlice env (fun d => d.category attr) sl) sl attr sl.leftIndex
      (ofInt 0 : F) (ofInt 0) with
  | error e => rfl
  | ok loop =>
    cases loop with
    | none => rfl
    | some r =>
      cases entropy cfg (s.sortSlice env (fun d => d.category attr) sl) sl.leftIndex
        sl.rightIndex with
      | error e => rfl
      | ok e =>
        simp only
        generalize (if numClassifiedPoints cfg _ sl.leftIndex sl.rightIndex = 0 then e else _) =
          infoGain
        cases hiv : lt (ofInt 0) r.2 with
        | false => rfl
        | true =>
          simp only [assert_true, pure, Except.pure, List.foldl_cons, List.foldl_nil,
            CategoricalBest.consider]
          split_ifs
          · rfl
          · rfl

theorem foldlM_categoricalAttribute (env : Environment) (cfg : Settings) (sl : Slice) :
    ∀ (attrs : List ℕ) (s : LearnerState F) (best : CategoricalBest F),
      attrs.foldlM (categoricalAttribute env cfg sl) (s, best) = do
        let (s', cs) ← categoricalCandidates env cfg sl attrs s
        return (s', cs.foldl CategoricalBest.consider best) := by
  intro attrs
  induction attrs with
  | nil => exact fun s best => rfl
  | cons attr rest ih =>
    intro s best
    rw [List.foldlM_cons, categoricalAttribute_eq, categoricalCandidates]
    cases categoricalCandidate cfg (s.sortSlice env (fun d => d.category attr) sl) sl attr with
    | error e => rfl
    | ok c =>
      simp only [bind, Except.bind, pure, Except.pure] at ih ⊢
      rw [ih]
      cases categoricalCandidates env cfg sl rest
        (s.sortSlice env (fun d => d.category attr) sl) with
      | error e => rfl
      | ok r => simp only [List.foldl_append]

theorem considerCut_eq (cfg : Settings) (s : LearnerState F) (sl : Slice) (attr tries : ℕ)
    (c : Cut F)
    (b : IntBest F) : considerCut cfg s sl attr tries c b = do
      let cs ← intCandidate cfg s sl attr tries c
      return cs.foldl IntBest.take b := by
  unfold considerCut intCandidate
  split_ifs with hc
  · cases cutGain cfg s sl attr tries c with
    | error e => rfl
    | ok gain => rfl
  · rfl

theorem intAttribute_eq (env : Environment) (cfg : Settings) (sl : Slice) (acc : IntState F)
    (attr : ℕ) : intAttribute env cfg sl acc attr = do
      let (cuts, conjs) ← attributeCandidates cfg
        (acc.state.sortSlice env (fun d => d.int attr) sl) sl attr
      return ⟨acc.state.sortSlice env (fun d => d.int attr) sl, cuts.foldl IntBest.take acc.best,
        conjs.foldl IntBest.take acc.conjBest⟩ := by
  unfold intAttribute attributeCandidates
  simp only [considerCut_eq]
  generalize acc.state.sortSlice env (fun d => d.int attr) sl = s
  simp only [bind, Except.bind]
  cases cutLoop cfg s sl attr sl.leftIndex ⟨0, (.initial : Cut F), .initial⟩ with
  | error e => rfl
  | ok cs =>
    simp only
    split_ifs with hcfg
    · cases intCandidate cfg s sl attr cs.tries cs.conjCut with
      | error e => rfl
      | ok conjs =>
        cases intCandidate cfg s sl attr cs.tries cs.cut with
        | error e => rfl
        | ok cuts => rfl
    · cases intCandidate cfg s sl attr cs.tries cs.cut with
      | error e => rfl
      | ok cuts => rfl

theorem foldlM_intAttribute_eq (env : Environment) (cfg : Settings) (sl : Slice) :
    ∀ (attrs : List ℕ) (acc : IntState F), attrs.foldlM (intAttribute env cfg sl) acc = do
      let (s', cuts, conjs) ← intCandidates env cfg sl attrs acc.state
      return ⟨s', cuts.foldl IntBest.take acc.best, conjs.foldl IntBest.take acc.conjBest⟩ := by
  intro attrs
  induction attrs with
  | nil => exact fun acc => rfl
  | cons attr rest ih =>
    intro acc
    rw [List.foldlM_cons, intAttribute_eq, intCandidates]
    generalize acc.state.sortSlice env (fun d => d.int attr) sl = s
    cases attributeCandidates cfg s sl attr with
    | error e => rfl
    | ok c =>
      simp only [bind, Except.bind, pure, Except.pure] at ih ⊢
      rw [ih]
      simp only
      cases intCandidates env cfg sl rest s with
      | error e => rfl
      | ok r => simp only [List.foldl_append]

/-- `find_best_split` computes the candidates and selects among them. -/
theorem findBestSplit_eq (env : Environment) (cfg : Settings) (sl : Slice) (s : LearnerState F) :
    findBestSplit env cfg sl s = do
      assert (sl.leftIndex ≤ sl.rightIndex ∧ sl.rightIndex < s.datapointPtrs.length)
      let c ← candidates env cfg sl s
      let job ← c.select cfg sl
      return (job, c.state) := by
  unfold findBestSplit candidates
  rw [foldlM_categoricalAttribute]
  cases categoricalCandidates env cfg sl
      (List.range (s.point sl.leftIndex).categoricalData.length) s with
  | error e => rfl
  | ok r =>
    simp only [bind, Except.bind, pure, Except.pure, foldlM_intAttribute_eq]
    cases intCandidates env cfg sl (List.range (r.1.point sl.leftIndex).intData.length) r.1 with
    | error e => rfl
    | ok r' => rfl

/-! ## What the variables hold at the end -/

/-- The cut has a positive intrinsic value. -/
def IntCandidate.nonZero (c : IntCandidate F) : Bool := lt (ofInt 0) c.intrinsicValue

/-- The gain ratio of a cut with a positive intrinsic value. -/
def IntCandidate.ratio (c : IntCandidate F) : F := div c.gain c.intrinsicValue

/-- The candidate replaces the initial values of the record for positive intrinsic
    values. -/
def IntCandidate.beatsInitial (c : IntCandidate F) : Bool :=
  lt (ofInt (-1000000)) c.ratio ||
    (eq c.ratio (ofInt (-1000000)) && abs32 c.threshold < abs32 0)

/-- No candidate gets into the record for positive intrinsic values: the first one
    does not have one, so that the flag `int_split_possible` is set without it, and the
    others do not compare above the initial value. -/
def Untouched (cs : List (IntCandidate F)) : Prop :=
  (∀ c, cs.head? = some c → c.nonZero = false) ∧ ∀ c ∈ cs, c.nonZero = true → c.beatsInitial = false

theorem untouched_append {cs : List (IntCandidate F)} {c : IntCandidate F} (hne : cs ≠ []) :
    Untouched (cs ++ [c]) ↔ Untouched cs ∧ (c.nonZero = true → c.beatsInitial = false) := by
  unfold Untouched
  rw [List.head?_append_of_ne_nil _ hne, List.forall_mem_append, List.forall_mem_singleton,
    and_assoc]

theorem untouched_singleton {c : IntCandidate F} : Untouched [c] ↔ c.nonZero = false := by
  unfold Untouched
  simp only [List.head?_cons, Option.some.injEq, forall_eq', List.forall_mem_singleton]
  constructor
  · exact fun h => h.1
  · exact fun h => ⟨h, fun ht => by simp [h] at ht⟩

/-- The variables for a list of integer candidates. -/
structure IntBest.AllSpec (cs : List (IntCandidate F)) (b : IntBest F) : Prop where
  splitPossible : b.splitPossible = true ↔ cs ≠ []
  nonZero : b.nonZeroIntrinsicValuePossible = true ↔ ∃ c ∈ cs, c.nonZero = true
  zeroRecord : b.nonZeroIntrinsicValuePossible = false → cs ≠ [] → ∃ c ∈ cs,
    b.attr4ZeroIv = c.attr ∧ b.threshold4ZeroIv = c.threshold ∧ b.gainRatio4ZeroIv = c.gain
  initialRecord : Untouched cs → b.attr = 0 ∧ b.threshold = 0 ∧ b.gainRatio = ofInt (-1000000)
  record : ¬ Untouched cs → ∃ c ∈ cs, c.nonZero = true ∧ b.attr = c.attr ∧
    b.threshold = c.threshold ∧ b.gainRatio = c.ratio

/-- Taking a candidate with a positive intrinsic value. -/
theorem IntBest.take_nonZero {b : IntBest F} {c : IntCandidate F} (h : c.nonZero = true) :
    b.take c =
      if !b.splitPossible || lt b.gainRatio c.ratio ||
          (eq c.ratio b.gainRatio && abs32 c.threshold < abs32 b.threshold) then
        { b with nonZeroIntrinsicValuePossible := true, splitPossible := true, gainRatio := c.ratio,
                 attr := c.attr, threshold := c.threshold }
      else { b with nonZeroIntrinsicValuePossible := true } := by
  have hiv : lt (ofInt 0) c.intrinsicValue = true := h
  unfold IntBest.take IntBest.consider
  rw [if_pos hiv]
  rfl

/-- Taking a candidate without one. -/
theorem IntBest.take_zero {b : IntBest F} {c : IntCandidate F} (h : c.nonZero = false) :
    b.take c =
      if !b.nonZeroIntrinsicValuePossible then
        if !b.splitPossible || lt b.gainRatio4ZeroIv c.gain ||
            (eq c.gain b.gainRatio4ZeroIv && abs32 c.threshold < abs32 b.threshold4ZeroIv) then
          { b with splitPossible := true, gainRatio4ZeroIv := c.gain, attr4ZeroIv := c.attr,
                   threshold4ZeroIv := c.threshold }
        else b
      else b := by
  have hiv : lt (ofInt 0) c.intrinsicValue = false := h
  unfold IntBest.take IntBest.consider
  rw [if_neg (by rw [hiv]; simp)]

theorem IntBest.AllSpec.take_nonZero {cs : List (IntCandidate F)} {b : IntBest F}
    (h : b.AllSpec cs) {c : IntCandidate F} (hc : c.nonZero = true) :
    (b.take c).AllSpec (cs ++ [c]) := by
  have hmem : c ∈ cs ++ [c] := List.mem_append_right _ (List.mem_singleton_self c)
  have hex : ∃ c' ∈ cs ++ [c], c'.nonZero = true := ⟨c, hmem, hc⟩
  rw [IntBest.take_nonZero hc]
  split_ifs with hbest
  · -- the candidate is recorded
    have htouched : ¬ Untouched (cs ++ [c]) := by
      intro hun
      by_cases hne : cs = []
      · subst hne
        rw [List.nil_append, untouched_singleton, hc] at hun
        exact absurd hun (by simp)
      · rw [untouched_append hne] at hun
        obtain ⟨-, hθ, hratio⟩ := h.initialRecord hun.1
        rw [hratio, hθ, h.splitPossible.mpr hne] at hbest
        have hinit := hun.2 hc
        unfold IntCandidate.beatsInitial at hinit
        rw [Bool.or_assoc, hinit] at hbest
        exact absurd hbest (by simp)
    exact ⟨by simp, iff_of_true rfl hex, by simp, fun hun => absurd hun htouched,
      fun _ => ⟨c, hmem, hc, rfl, rfl, rfl⟩⟩
  · rw [Bool.not_eq_true, Bool.or_eq_false_iff, Bool.or_eq_false_iff, Bool.not_eq_false'] at hbest
    have hne : cs ≠ [] := h.splitPossible.mp hbest.1.1
    refine ⟨?_, iff_of_true rfl hex, by simp, fun hun => ?_, fun hto => ?_⟩
    · exact iff_of_true hbest.1.1 (by simp)
    · exact h.initialRecord ((untouched_append hne).mp hun).1
    · by_cases hun : Untouched cs
      · -- the candidate would have replaced the initial values
        exfalso
        obtain ⟨-, hθ, hratio⟩ := h.initialRecord hun
        refine hto ((untouched_append hne).mpr ⟨hun, fun _ => ?_⟩)
        unfold IntCandidate.beatsInitial
        rw [hratio, hθ] at hbest
        rw [hbest.1.2, hbest.2]
        rfl
      · obtain ⟨c', hc', hrest⟩ := h.record hun
        exact ⟨c', List.mem_append_left _ hc', hrest⟩

theorem IntBest.AllSpec.take_zero {cs : List (IntCandidate F)} {b : IntBest F} (h : b.AllSpec cs)
    {c : IntCandidate F} (hc : c.nonZero = false) : (b.take c).AllSpec (cs ++ [c]) := by
  have hmem : c ∈ cs ++ [c] := List.mem_append_right _ (List.mem_singleton_self c)
  have hex : (∃ c' ∈ cs ++ [c], c'.nonZero = true) ↔ ∃ c' ∈ cs, c'.nonZero = true := by
    simp [or_and_right, exists_or, hc]
  have huntouched : Untouched (cs ++ [c]) ↔ Untouched cs := by
    by_cases hne : cs = []
    · subst hne
      rw [List.nil_append, untouched_singleton]
      exact iff_of_true hc ⟨by simp, by simp⟩
    · rw [untouched_append hne, and_iff_left]
      intro ht
      rw [hc] at ht
      exact absurd ht (by simp)
  have hinitial : Untouched (cs ++ [c]) →
      b.attr = 0 ∧ b.threshold = 0 ∧ b.gainRatio = ofInt (-1000000) :=
    fun hun => h.initialRecord (huntouched.mp hun)
  have hrecord : ¬ Untouched (cs ++ [c]) → ∃ c' ∈ cs ++ [c], c'.nonZero = true ∧ b.attr = c'.attr ∧
      b.threshold = c'.threshold ∧ b.gainRatio = c'.ratio := by
    intro hto
    obtain ⟨c', hc', hrest⟩ := h.record fun hun => hto (huntouched.mpr hun)
    exact ⟨c', List.mem_append_left _ hc', hrest⟩
  have hnonZero := h.nonZero.trans hex.symm
  rw [IntBest.take_zero hc]
  split_ifs with hz hbest
  · exact ⟨by simp, hnonZero, fun _ _ => ⟨c, hmem, rfl, rfl, rfl⟩, hinitial, hrecord⟩
  · rw [Bool.not_eq_true, Bool.or_eq_false_iff, Bool.or_eq_false_iff, Bool.not_eq_false'] at hbest
    refine ⟨iff_of_true hbest.1.1 (by simp), hnonZero, fun hn _ => ?_, hinitial, hrecord⟩
    obtain ⟨c', hc', hrest⟩ := h.zeroRecord hn (h.splitPossible.mp hbest.1.1)
    exact ⟨c', List.mem_append_left _ hc', hrest⟩
  · rw [Bool.not_eq_true, Bool.not_eq_false'] at hz
    have hne : cs ≠ [] := by
      obtain ⟨c', hc', -⟩ := h.nonZero.mp hz
      exact List.ne_nil_of_mem hc'
    refine ⟨iff_of_true (h.splitPossible.mpr hne) (by simp), hnonZero, fun hn _ => ?_, hinitial,
      hrecord⟩
    rw [hz] at hn
    exact absurd hn (by simp)

theorem IntBest.all_spec (cs : List (IntCandidate F)) : (IntBest.all cs).AllSpec cs := by
  induction cs using List.reverseRecOn with
  | nil =>
    exact ⟨by simp [IntBest.all, IntBest.initial], by simp [IntBest.all, IntBest.initial], by simp,
      fun _ => ⟨rfl, rfl, rfl⟩, fun h => absurd ⟨by simp, by simp⟩ h⟩
  | append_singleton cs c ih =>
    have htake : IntBest.all (cs ++ [c]) = (IntBest.all cs).take c := by
      unfold IntBest.all
      rw [List.foldl_append]
      rfl
    rw [htake]
    cases hc : c.nonZero with
    | true => exact ih.take_nonZero hc
    | false => exact ih.take_zero hc

theorem CategoricalBest.all_append (cs : List (CategoricalCandidate F))
    (c : CategoricalCandidate F) :
    CategoricalBest.all (cs ++ [c]) = (CategoricalBest.all cs).consider c := by
  unfold CategoricalBest.all
  rw [List.foldl_append]
  rfl

/-- The variables for a list of categorical candidates. -/
theorem CategoricalBest.all_spec (cs : List (CategoricalCandidate F)) :
    ((CategoricalBest.all cs).splitPossible = true ↔ cs ≠ []) ∧
      (cs ≠ [] → ∃ c ∈ cs, (CategoricalBest.all cs).attr = c.attr ∧
        (CategoricalBest.all cs).gainRatio = c.gainRatio) := by
  induction cs using List.reverseRecOn with
  | nil => exact ⟨by simp [CategoricalBest.all], by simp⟩
  | append_singleton cs c ih =>
    rw [CategoricalBest.all_append]
    unfold CategoricalBest.consider
    split_ifs with hbest
    · exact ⟨by simp, fun _ => ⟨c, by simp, rfl, rfl⟩⟩
    · rw [Bool.not_eq_true, Bool.or_eq_false_iff, Bool.not_eq_false'] at hbest
      obtain ⟨c', hc', hrest⟩ := ih.2 (ih.1.mp hbest.1)
      exact ⟨iff_of_true hbest.1 (by simp), fun _ => ⟨c', List.mem_append_left _ hc', hrest⟩⟩

/-! ## The job that is selected -/

/-- A conjunctive cut is a cut. -/
def CutState.Ok (cs : CutState F) : Prop := cs.conjCut.possible = true → cs.cut.possible = true

theorem Cut.consider_possible {cfg : Settings} {s : LearnerState F} {sl : Slice} (cur : ℕ)
    (total : F)
    (c : Cut F) : (c.consider cfg s sl cur total).possible = true := by
  unfold Cut.consider
  split_ifs with h
  · rfl
  · simp only [Bool.or_eq_true, Bool.not_eq_true', not_or, Bool.not_eq_false] at h
    exact h.1

theorem tryCut_ok {cfg : Settings} {s : LearnerState F} {sl : Slice} {attr cur : ℕ}
    {cs cs' : CutState F}
    (h : cs.Ok) (hrun : tryCut cfg s sl attr cur cs = .ok cs') : cs'.Ok := by
  unfold tryCut at hrun
  simp only at hrun
  by_cases hallowed : cutAllowed cfg ((s.point cur).int attr) = true
  · rw [if_pos hallowed] at hrun
    obtain ⟨total, -, hret⟩ := bind_ok.mp hrun
    rw [← Except.ok.inj hret]
    exact fun _ => Cut.consider_possible cur total cs.cut
  · rw [if_neg hallowed] at hrun
    rw [← Except.ok.inj hrun]
    exact h

theorem cutLoop_ok {cfg : Settings} {s : LearnerState F} {sl : Slice} {attr : ℕ} :
    ∀ {cur : ℕ} {cs cs' : CutState F}, cs.Ok → cutLoop cfg s sl attr cur cs = .ok cs' → cs'.Ok := by
  intro cur
  induction hn : sl.rightIndex - cur using Nat.strong_induction_on generalizing cur with
  | _ n ih =>
    intro cs cs' h hrun
    rw [cutLoop] at hrun
    simp only at hrun
    have hle := le_skipEqual (fun i => (s.point i).int attr) sl.rightIndex cur
    generalize skipEqual (fun i => (s.point i).int attr) sl.rightIndex cur = next at hle hrun
    split_ifs at hrun with hlt hnext
    · cases htry : tryCut cfg s sl attr next cs with
      | error e =>
        rw [htry] at hrun
        cases hrun
      | ok cs₁ =>
        rw [htry] at hrun
        exact ih (sl.rightIndex - (next + 1)) (by omega) rfl (tryCut_ok h htry) hrun
    · rw [← Except.ok.inj hrun]
      exact h
    · rw [← Except.ok.inj hrun]
      exact h

theorem intCandidate_ne_nil {cfg : Settings} {s : LearnerState F} {sl : Slice} {attr tries : ℕ}
    {c : Cut F} {cs : List (IntCandidate F)} (hrun : intCandidate cfg s sl attr tries c = .ok cs) :
    cs ≠ [] ↔ c.possible = true := by
  unfold intCandidate at hrun
  split_ifs at hrun with hc
  · obtain ⟨gain, -, hret⟩ := bind_ok.mp hrun
    rw [← Except.ok.inj hret]
    exact iff_of_true (by simp) hc
  · rw [← Except.ok.inj hrun]
    exact iff_of_false (by simp) hc

/-- With a conjunctive candidate there is a candidate. -/
theorem intCandidates_conjunctive {env : Environment} {cfg : Settings} {sl : Slice} :
    ∀ {attrs : List ℕ} {s : LearnerState F}
      {r : LearnerState F × List (IntCandidate F) × List (IntCandidate F)},
      intCandidates env cfg sl attrs s = .ok r → r.2.2 ≠ [] → r.2.1 ≠ [] := by
  intro attrs
  induction attrs with
  | nil =>
    intro s r hrun
    rw [← Except.ok.inj hrun]
    exact id
  | cons attr rest ih =>
    intro s r hrun hne
    rw [intCandidates] at hrun
    obtain ⟨⟨cuts, conjs⟩, hattr, hrun⟩ := bind_ok.mp hrun
    obtain ⟨⟨s', cuts', conjs'⟩, hrest, hret⟩ := bind_ok.mp hrun
    rw [← Except.ok.inj hret] at hne ⊢
    simp only [ne_eq, List.append_eq_nil_iff, not_and_or] at hne ⊢
    refine hne.imp (fun hconjs => ?_) (ih hrest)
    unfold attributeCandidates at hattr
    obtain ⟨cs, hloop, hattr⟩ := bind_ok.mp hattr
    have hok : cs.Ok := cutLoop_ok (by simp [CutState.Ok, Cut.initial]) hloop
    simp only at hattr
    split_ifs at hattr with hcfg
    · obtain ⟨conjs₁, hconj, hattr⟩ := bind_ok.mp hattr
      obtain ⟨cuts₁, hcut, hret⟩ := bind_ok.mp hattr
      obtain ⟨rfl, rfl⟩ := Prod.mk.inj (Except.ok.inj hret)
      exact (intCandidate_ne_nil hcut).mpr (hok ((intCandidate_ne_nil hconj).mp hconjs))
    · obtain ⟨conjs₁, hconj, hattr⟩ := bind_ok.mp hattr
      obtain ⟨cuts₁, hcut, hret⟩ := bind_ok.mp hattr
      obtain ⟨rfl, rfl⟩ := Prod.mk.inj (Except.ok.inj hret)
      exact absurd (Except.ok.inj hconj).symm hconjs

/-- The integer candidates from which one is selected: the conjunctive ones if these
    are preferred and there are any. -/
def Candidates.preferred (cfg : Settings) (c : Candidates F) : List (IntCandidate F) :=
  if cfg.conjunctiveSetting = .preferenceForConjuncts ∧
    c.conjunctive ≠ [] then c.conjunctive else c.cuts

theorem candidates_ok {env : Environment} {cfg : Settings} {sl : Slice} {s : LearnerState F}
    {c : Candidates F} (hrun : candidates env cfg sl s = .ok c) :
    c.conjunctive ≠ [] → c.cuts ≠ [] := by
  unfold candidates at hrun
  obtain ⟨⟨s₁, cats⟩, -, hrun⟩ := bind_ok.mp hrun
  obtain ⟨⟨s₂, cuts, conjs⟩, hints, hret⟩ := bind_ok.mp hrun
  rw [← Except.ok.inj hret]
  exact intCandidates_conjunctive hints

omit [Score F] in
theorem Candidates.preferred_eq_nil (cfg : Settings) {c : Candidates F}
    (hconj : c.conjunctive ≠ [] → c.cuts ≠ []) : c.preferred cfg = [] ↔ c.cuts = [] := by
  unfold Candidates.preferred
  split_ifs with h
  · exact iff_of_false h.2 (hconj h.2)
  · rfl

/-- The integer split that is selected if there is a candidate. -/
def Candidates.intJob (cfg : Settings) (sl : Slice) (c : Candidates F) : Job :=
  .intSplit sl (IntBest.all (c.preferred cfg)).selected.2.1
  (IntBest.all (c.preferred cfg)).selected.2.2

/-- The cases of the selection: the last comparison takes the integer split if its
    gain ratio is at most that of the categorical one. -/
theorem Candidates.select_eq (cfg : Settings) (sl : Slice) {c : Candidates F}
    (hconj : c.conjunctive ≠ [] → c.cuts ≠ []) : c.select cfg sl =
      if c.preferred cfg = [] then
        if c.categorical = [] then .error (.splitNotPossibleError "No split possible!")
        else .ok (.categoricalSplit sl (CategoricalBest.all c.categorical).attr)
      else if c.categorical = [] then .ok (c.intJob cfg sl)
      else if le (IntBest.all (c.preferred cfg)).selected.1
        (CategoricalBest.all c.categorical).gainRatio then
        .ok (c.intJob cfg sl)
      else .ok (.categoricalSplit sl (CategoricalBest.all c.categorical).attr) := by
  have hcuts := (IntBest.all_spec c.cuts).splitPossible
  have hconjs := (IntBest.all_spec c.conjunctive).splitPossible
  have hcats := (CategoricalBest.all_spec c.categorical).1
  have hselected : (if cfg.conjunctiveSetting = .preferenceForConjuncts ∧
      (IntBest.all c.conjunctive).splitPossible then (IntBest.all c.conjunctive).selected
      else (IntBest.all c.cuts).selected) = (IntBest.all (c.preferred cfg)).selected := by
    unfold Candidates.preferred
    simp only [hconjs]
    split_ifs
    · rfl
    · rfl
  have hpreferred := Candidates.preferred_eq_nil cfg hconj
  unfold Candidates.select chooseSplit Candidates.intJob
  simp only [hselected]
  by_cases hnil : c.cuts = []
  · have hfalse : (IntBest.all c.cuts).splitPossible = false := by
      rw [← Bool.not_eq_true, hcuts]
      exact fun h => h hnil
    have hfalse' : (IntBest.all c.conjunctive).splitPossible = false := by
      rw [← Bool.not_eq_true, hconjs]
      exact fun h => hconj h hnil
    rw [if_pos (hpreferred.mpr hnil), hfalse, hfalse']
    by_cases hcat : c.categorical = []
    · have hno : (CategoricalBest.all c.categorical).splitPossible = false := by
        rw [← Bool.not_eq_true, hcats]
        exact fun h => h hcat
      rw [if_pos hcat, hno]
      rfl
    · rw [if_neg hcat, hcats.mpr hcat]
      rfl
  · rw [if_neg (fun h => hnil (hpreferred.mp h)), hcuts.mpr hnil]
    by_cases hcat : c.categorical = []
    · have hno : (CategoricalBest.all c.categorical).splitPossible = false := by
        rw [← Bool.not_eq_true, hcats]
        exact fun h => h hcat
      rw [if_pos hcat, hno]
      rfl
    · rw [if_neg hcat, hcats.mpr hcat]
      rfl

end HiceDt.Learner
