import HiceDt.Boogie.Iteration
import HiceDt.Boogie.Process
import HiceDt.Learner.Advance
import HiceDt.Lib.Ice
import Mathlib.Data.List.Sections
import Mathlib.Data.Prod.Lex
import Mathlib.Order.WellFounded
import Mathlib.Algebra.BigOperators.Group.List.Basic
import Mathlib.Data.Finset.Powerset

/-!
# Runs of the Boogie teacher with its learner

`LearnInv` (`Boogie/Source/Houdini/MLHoudini.cs`, lines 921–1130) with hice-dt as the learner: in
every iteration that calls `learn`, the tree is an answer of the process to the files of the
sample. The counterexamples of the prover are examples that the conjecture violates, and the new
conjecture satisfies all examples so far.

Results:

* `Recorded.learned_holds`: the new conjecture satisfies all counterexamples so far.
* `learnInv_refines`: a run is a session of a learner that fits the examples.
* `learnInv_keeps_solutions`: what holds if the program can be verified.
* `learnInv_ends`: with Boolean parameters every run ends.
-/

namespace HiceDt.Boogie

open Loop Dictionary

/-! ## Genuine counterexamples -/

namespace MLHoudini

variable {Interp Dummies Counterexample : Type}

/-- What the prover and `P_ExtractState` promise: the arguments belong to existential functions,
    the calls on the left-hand side are true, and the ones on the right-hand side false. Sums and
    differences of the values do not overflow. -/
structure Genuine (h : MLHoudini Interp Dummies Counterexample) : Prop where
  wellFormed : ∀ values cex, h.Extracted values cex → cex.WellFormed h.existentialFunctions
  exact : ∀ values cex, h.Extracted values cex → cex.All (Exact h.existentialFunctions)
  lhs : ∀ values cex, h.Extracted values cex → ∀ tup ∈ cex.lhs, ∀ dp, IsPoint tup dp →
    truth values dp
  rhs : ∀ values cex, h.Extracted values cex → ∀ tup ∈ cex.rhs, ∀ dp, IsPoint tup dp →
    ¬ truth values dp

variable {h : MLHoudini Interp Dummies Counterexample} {values : List (String × DecisionTreeDomain)}

/-- The conjecture violates the counterexample. -/
theorem Genuine.not_holds (hgenuine : h.Genuine) {cex : Cex} (hcex : h.Extracted values cex) :
    ¬ cex.Holds (truth values) := by
  intro hholds
  obtain ⟨tup, htup, dp, hdp, htrue⟩ := hholds (hgenuine.lhs values cex hcex)
  exact hgenuine.rhs values cex hcex tup htup dp hdp htrue

/-! ## The process as the learner -/

/-- An iteration; if the learner was called, the process has answered. -/
def Iterates (F : Type) [Learner.Score F] (h : MLHoudini Interp Dummies Counterexample)
    (attributes intervals : List Char) (s : TeacherState)
    (outcome : Option (VCGenOutcome Counterexample)) (s' : TeacherState) : Prop :=
  h.learnInvStep s = .ok (outcome, s') ∧ (s'.numLearnerQueries ≠ s.numLearnerQueries →
    ∀ root, h.learner s'.numLearnerQueries = .ok root →
      Answers F h.existentialFunctions attributes intervals s'.sample root)

/-- A run, with the conjectures that were refuted. -/
inductive Run (F : Type) [Learner.Score F] (h : MLHoudini Interp Dummies Counterexample)
    (attributes intervals : List Char) : List (List (String × DecisionTreeDomain)) → TeacherState →
      Prop
  | start {s : TeacherState} : h.initialState = .ok s → Run F h attributes intervals [] s
  | quiet {tried : List (List (String × DecisionTreeDomain))} {s s' : TeacherState} :
    Run F h attributes intervals tried s → h.Iterates F attributes intervals s none s' →
    s'.numLearnerQueries = s.numLearnerQueries → Run F h attributes intervals tried s'
  | round {tried : List (List (String × DecisionTreeDomain))} {s s' : TeacherState} :
    Run F h attributes intervals tried s → h.Iterates F attributes intervals s none s' →
    s'.numLearnerQueries ≠ s.numLearnerQueries →
    Run F h attributes intervals (tried ++ [s.function2Value]) s'

/-- The counterexamples in the sample. -/
structure Recorded (h : MLHoudini Interp Dummies Counterexample) (s : TeacherState)
    (cexs : List Cex) :
    Prop where
  values : ∀ entry ∈ s.function2Value, h.IsValue entry
  names : keys s.function2Value = h.existentialFunctions.map Function.name
  recorded : ({} : Sample).recordAll (cexs.map fun cex => (cex, true)) = .ok s.sample
  extracted : ∀ cex ∈ cexs, ∃ values, h.Extracted values cex

variable {s s' : TeacherState} {cexs new : List Cex} {funcsChanged : List String} {root : TreeNode}
  {F : Type} [Learner.Score F] {attributes intervals : List Char}
  {tried : List (List (String × DecisionTreeDomain))}

theorem initialState_recorded (hrun : h.initialState = .ok s) : h.Recorded s [] := by
  have hvalues := (initialState_inv hrun).values
  obtain ⟨worklist, -, hrun⟩ := bind_ok.mp hrun
  obtain rfl := Except.ok.inj hrun
  refine ⟨hvalues, ?_, rfl, fun _ hcex => (List.not_mem_nil hcex).elim⟩
  show keys h.initialValue = _
  rw [initialValue, keys, List.map_map]
  rfl

/-- A call of the learner adds the new counterexamples. -/
theorem Recorded.learned (hs : h.Recorded s cexs)
    (hlearned : h.Learned s s' new funcsChanged root) : h.Recorded s' (cexs ++ new) := by
  obtain ⟨-, hextracted, hnew, -, -, hmodels⟩ := hlearned
  refine ⟨(constructModels_spec hs.values hmodels).1,
    (constructModels_lookup hmodels).1.trans hs.names, ?_,
    List.forall_mem_append.mpr ⟨hs.extracted, fun cex hcex => ⟨_, hextracted cex hcex⟩⟩⟩
  rw [List.map_append]
  exact recordAll_append hs.recorded hnew

theorem Recorded.wellFormed (hs : h.Recorded s cexs) (hgenuine : h.Genuine) :
    ∀ c ∈ cexs.map fun cex => (cex, true), c.1.WellFormed h.existentialFunctions := by
  refine List.forall_mem_map.mpr fun cex hcex => ?_
  obtain ⟨values, hextracted⟩ := hs.extracted cex hcex
  exact hgenuine.wellFormed values cex hextracted

theorem Recorded.exact (hs : h.Recorded s cexs) (hgenuine : h.Genuine) :
    ∀ cex ∈ cexs, cex.All (Exact h.existentialFunctions) := by
  intro cex hcex
  obtain ⟨values, hextracted⟩ := hs.extracted cex hcex
  exact hgenuine.exact values cex hextracted

/-- The sample can be written and read. -/
theorem Recorded.sample_ok (hs : h.Recorded s cexs) (hgenuine : h.Genuine) :
    SampleInv h.existentialFunctions s.sample ∧
      ∀ dp i, s.sample.HasIndex dp i → Exact h.existentialFunctions dp := by
  have hexact : ∀ c ∈ cexs.map fun cex => (cex, true), c.1.All (Exact h.existentialFunctions) :=
    List.forall_mem_map.mpr (hs.exact hgenuine)
  have hempty : ({} : Sample).All (Exact h.existentialFunctions) := fun _ _ hx => by cases hx
  exact ⟨recordAll_inv (hs.wellFormed hgenuine) (SampleInv.empty _) hs.recorded,
    recordAll_all hexact hempty hs.recorded⟩

/-- The sample says that the counterexamples hold. -/
theorem Recorded.models_iff (hs : h.Recorded s cexs) (hgenuine : h.Genuine) {ν : DataPoint → Prop} :
    s.sample.Models ν ↔ ∀ cex ∈ cexs, cex.Holds ν := by
  rw [recordAll_models (hs.wellFormed hgenuine) (SampleInv.empty _) hs.recorded,
    and_iff_right (Sample.models_empty ν), List.forall_mem_map]
  exact forall₂_congr fun cex _ => imp_iff_right (.inl rfl)

/-- The new conjecture satisfies all counterexamples so far. -/
theorem Recorded.learned_holds (hs : h.Recorded s cexs) (hgenuine : h.Genuine)
    (hsetup : Setup h.existentialFunctions h.attributes attributes intervals)
    (hlearned : h.Learned s s' new funcsChanged root)
    (hanswer : Answers F h.existentialFunctions attributes intervals s'.sample root) :
    ∀ cex ∈ cexs ++ new, cex.Holds (truth s'.function2Value) := by
  have hs' := hs.learned hlearned
  obtain ⟨hinv, hexact⟩ := hs'.sample_ok hgenuine
  exact (hs'.models_iff hgenuine).mp (answer_models hsetup hinv hexact hanswer hs.names
    hlearned.models)

/-- With the process some function changes. -/
theorem Recorded.funcsChanged_ne_nil (hs : h.Recorded s cexs) (hgenuine : h.Genuine)
    (hsetup : Setup h.existentialFunctions h.attributes attributes intervals)
    (hlearned : h.Learned s s' new funcsChanged root)
    (hanswer : Answers F h.existentialFunctions attributes intervals s'.sample root) :
    funcsChanged ≠ [] := by
  rintro rfl
  have hsame := (constructModels_spec hs.values hlearned.models).2
  have htruth : truth s'.function2Value = truth s.function2Value := by
    funext dp
    rw [truth, truth, hsame _ List.not_mem_nil]
  obtain ⟨cex, hcex⟩ := List.exists_mem_of_ne_nil _ hlearned.ne_nil
  have hholds := hs.learned_holds hgenuine hsetup hlearned hanswer cex
    (List.mem_append_right _ hcex)
  rw [htruth] at hholds
  exact hgenuine.not_holds (hlearned.extracted cex hcex) hholds

/-- The answer of the process in an iteration that calls the learner. -/
theorem Iterates.answers {outcome : Option (VCGenOutcome Counterexample)}
    (hstep : h.Iterates F attributes intervals s outcome s')
    (hlearned : h.Learned s s' new funcsChanged root) :
    Answers F h.existentialFunctions attributes intervals s'.sample root := by
  refine hstep.2 (fun heq => ?_) root hlearned.learner
  have hnumber := hlearned.numLearnerQueries
  omega

/-- `invalid` is said of real errors. -/
theorem Recorded.invalid (hs : h.Recorded s cexs) (hgenuine : h.Genuine)
    (hsetup : Setup h.existentialFunctions h.attributes attributes intervals)
    {errors : List Counterexample}
    (hstep : h.Iterates F attributes intervals s (some ⟨.invalid, errors⟩) s') :
    errors ≠ [] ∧ ∃ impl, ∀ error ∈ errors,
      h.extractState impl error = .ok ⟨[], []⟩ ∧ h.Extracted s.function2Value ⟨[], []⟩ := by
  have heffect := (learnInvStep_effect hstep.1).1
  generalize houtcome : some (⟨.invalid, errors⟩ : VCGenOutcome Counterexample) = outcome at heffect
  cases heffect with
  | quiet => cases houtcome
  | stopped ho =>
    rw [← Option.some.inj houtcome] at ho
    exact absurd rfl ho
  | @real impl errors' _ hne hall =>
    obtain rfl : errors = errors' := congrArg VCGenOutcome.errors (Option.some.inj houtcome)
    exact ⟨hne, impl, hall⟩
  | learned hlearned hout =>
    rcases hout with rfl | hnil
    · cases houtcome
    · exact absurd hnil (hs.funcsChanged_ne_nil hgenuine hsetup hlearned (hstep.answers hlearned))

/-! ## Runs -/

/-- What the conjecture says about arguments that are exact. -/
def truthAt (functions : List Function) (values : List (String × DecisionTreeDomain))
    (dp : DataPoint) :
    Prop :=
  Exact functions dp ∧ truth values dp

theorem holds_truthAt {functions : List Function} {cex : Cex} (hexact : cex.All (Exact functions)) :
    cex.Holds (truthAt functions values) ↔ cex.Holds (truth values) := by
  have hiff : ∀ tup ∈ cex.lhs ++ cex.rhs, ∀ dp, IsPoint tup dp →
      (truthAt functions values dp ↔ truth values dp) :=
    fun tup htup dp hdp => and_iff_right (hexact tup htup dp hdp)
  refine imp_congr (forall₂_congr fun tup htup => forall₂_congr fun dp hdp => ?_)
    (exists_congr fun tup => and_congr_right fun htup => exists_congr fun dp =>
    and_congr_right fun hdp => ?_)
  · exact hiff tup (List.mem_append_left _ htup) dp hdp
  · exact hiff tup (List.mem_append_right _ htup) dp hdp

/-- The abstract learner: it knows the examples, and its conjecture fits. -/
def Fits (cexs : List Cex) (ν : DataPoint → Prop) : Prop := ∀ cex ∈ cexs, cex.Holds ν

theorem fits_consistent : Ice.Consistent (fun ν cex => Cex.Holds cex ν) Fits := fun _ _ hfits =>
    hfits

/-- The conjectures that were refuted, and the examples. -/
def IsSession (h : MLHoudini Interp Dummies Counterexample)
    (tried : List (List (String × DecisionTreeDomain))) (cexs : List Cex) : Prop :=
  Ice.Session (fun ν cex => Cex.Holds cex ν) Fits (tried.map (truthAt h.existentialFunctions)) cexs

/-- The examples of a run. -/
theorem Run.session (hgenuine : h.Genuine)
    (hsetup : Setup h.existentialFunctions h.attributes attributes intervals)
    (hrun : h.Run F attributes intervals tried s) :
    ∃ cexs, h.Recorded s cexs ∧ Fits cexs (truthAt h.existentialFunctions s.function2Value) ∧
      h.IsSession tried cexs := by
  induction hrun with
  | start hstart =>
    exact ⟨[], initialState_recorded hstart, fun _ hcex => (List.not_mem_nil hcex).elim, .start⟩
  | @quiet tried s s' _ hstep hnumber ih =>
    obtain ⟨cexs, hs, hfits, hsession⟩ := ih
    cases (learnInvStep_effect hstep.1).1 with
    | quiet hquiet _ =>
      obtain ⟨hsample, hvalue, -⟩ := hquiet
      refine ⟨cexs, ?_, hvalue ▸ hfits, hsession⟩
      exact ⟨hvalue ▸ hs.values, hvalue ▸ hs.names, hsample ▸ hs.recorded, hs.extracted⟩
    | learned hlearned =>
      have hnumber' := hlearned.numLearnerQueries
      omega
  | @round tried s s' _ hstep hnumber ih =>
    obtain ⟨cexs, hs, hfits, hsession⟩ := ih
    cases (learnInvStep_effect hstep.1).1 with
    | quiet hquiet _ => exact absurd hquiet.numLearnerQueries hnumber
    | @learned _ _ new funcsChanged root hlearned _ =>
      have hs' := hs.learned hlearned
      have hexact := hs'.exact hgenuine
      refine ⟨cexs ++ new, hs', fun cex hcex => ?_, ?_⟩
      · rw [holds_truthAt (hexact cex hcex)]
        exact hs.learned_holds hgenuine hsetup hlearned (hstep.answers hlearned) cex hcex
      · rw [IsSession, List.map_append, List.map_singleton]
        refine hsession.round hfits ?_
        obtain ⟨cex, hcex⟩ := List.exists_mem_of_ne_nil _ hlearned.ne_nil
        refine ⟨cex, hcex, ?_⟩
        rw [holds_truthAt (hexact cex (List.mem_append_right _ hcex))]
        exact hgenuine.not_holds (hlearned.extracted cex hcex)

/-- The conjectures differ at exact arguments. -/
theorem IsSession.nodup (hsession : h.IsSession tried cexs)
    {values : List (String × DecisionTreeDomain)}
    (hfits : Fits cexs (truthAt h.existentialFunctions values)) :
    ((tried ++ [values]).map (truthAt h.existentialFunctions)).Nodup := by
  rw [List.map_append, List.map_singleton]
  exact (hsession.nodup_next fits_consistent).2 _ hfits

/-- What a run of the teacher with the process achieves. -/
structure Achieves (F : Type) [Learner.Score F] (h : MLHoudini Interp Dummies Counterexample)
    (attributes intervals : List Char) (tried : List (List (String × DecisionTreeDomain)))
    (s : TeacherState) : Prop where
  session : ∃ cexs, ({} : Sample).recordAll (cexs.map fun cex => (cex, true)) = .ok s.sample ∧
    Fits cexs (truthAt h.existentialFunctions s.function2Value) ∧ h.IsSession tried cexs
  nodup : ((tried ++ [s.function2Value]).map (truthAt h.existentialFunctions)).Nodup
  invalid : ∀ errors s', h.Iterates F attributes intervals s (some ⟨.invalid, errors⟩) s' →
    errors ≠ [] ∧ ∃ impl, ∀ error ∈ errors, h.extractState impl error = .ok ⟨[], []⟩

/-- Functions that satisfy every counterexample that the prover may give. -/
def Solution (h : MLHoudini Interp Dummies Counterexample) (ν : DataPoint → Prop) : Prop :=
  ∀ values cex, h.Extracted values cex → cex.Holds ν

/-- If there is a solution, recorded counterexamples do not exclude it, a counterexample of the
    prover never contradicts the recorded ones, and `LearnInv` does not say `invalid`. -/
theorem learnInv_keeps_solutions (F : Type) [Learner.Score F]
    (h : MLHoudini Interp Dummies Counterexample) (hgenuine : h.Genuine)
    (attributes intervals : List Char)
    (hsetup : Setup h.existentialFunctions h.attributes attributes intervals)
    (tried : List (List (String × DecisionTreeDomain))) (s : TeacherState)
    (hrun : h.Run F attributes intervals tried s) (ν : DataPoint → Prop) (hν : h.Solution ν) :
    (∀ (new : List Cex) (sample : Sample), (∀ cex ∈ new, h.Extracted s.function2Value cex) →
      s.sample.recordAll (new.map fun cex => (cex, true)) = .ok sample →
      sample.Models ν ∧ ∀ cex, h.Extracted s.function2Value cex →
        (∀ tup ∈ cex.lhs ++ cex.rhs, ∃ dp, IsPoint tup dp) →
        sample.recordCexForC5 cex true ≠ .error .assertionFailure) ∧
    ∀ errors s', ¬ h.Iterates F attributes intervals s (some ⟨.invalid, errors⟩) s' := by
  obtain ⟨cexs, hs, -, -⟩ := hrun.session hgenuine hsetup
  refine ⟨fun new sample hnew hrecord => ?_, fun errors s' hstep => ?_⟩
  · have hold : s.sample.Models ν := by
      refine (hs.models_iff hgenuine).mpr fun cex hcex => ?_
      obtain ⟨values, hextracted⟩ := hs.extracted cex hcex
      exact hν values cex hextracted
    have hwell : ∀ c ∈ new.map fun cex => (cex, true), c.1.WellFormed h.existentialFunctions :=
      List.forall_mem_map.mpr fun cex hcex => hgenuine.wellFormed _ cex (hnew cex hcex)
    have hinv := (hs.sample_ok hgenuine).1
    have hmodels : sample.Models ν := (recordAll_models hwell hinv hrecord).mpr
      ⟨hold, List.forall_mem_map.mpr fun cex hcex _ => hν _ cex (hnew cex hcex)⟩
    refine ⟨hmodels, fun cex hextracted hpoints => ?_⟩
    exact recordCexForC5_consistent (recordAll_inv hwell hinv hrecord) hmodels
      (hgenuine.wellFormed _ cex hextracted) hpoints (hν _ cex hextracted) true
  · obtain ⟨hne, impl, hall⟩ := hs.invalid hgenuine hsetup hstep
    obtain ⟨error, herror⟩ := List.exists_mem_of_ne_nil _ hne
    have hempty : Cex.Holds ⟨[], []⟩ ν := hν _ _ (hall error herror).2
    obtain ⟨tup, htup, -⟩ := hempty fun tup htup => (List.not_mem_nil htup).elim
    exact List.not_mem_nil htup

/-! ## Boolean parameters -/

theorem Run.length (hrun : h.Run F attributes intervals tried s) :
    tried.length = s.numLearnerQueries := by
  induction hrun with
  | start hstart =>
    obtain ⟨_, -, hstart⟩ := bind_ok.mp hstart
    obtain rfl := Except.ok.inj hstart
    rfl
  | quiet _ _ hnumber ih => exact ih.trans hnumber.symm
  | @round tried s s' _ hstep hnumber ih =>
    rw [List.length_append, List.length_singleton, ih]
    cases (learnInvStep_effect hstep.1).1 with
    | quiet hquiet _ => exact absurd hquiet.numLearnerQueries hnumber
    | learned hlearned _ => exact hlearned.numLearnerQueries.symm

/-- A process without bounds and pre-phase. -/
def plainProcess : Process := ⟨false, false, fun _ => .stable, 10, 1, 10, 0, none⟩

/-- The files for a function with the parameter `b`. -/
def attributesB : List Char := "cat,$func,1\nint,inv$b\n\n".toList

def intervalsB : List Char := "0,0\n\n".toList

/-- What the process writes for a negative data point. -/
def writtenText : List Char :=
  ((hiceDt (Option ℚ) plainProcess "inv" attributesB "0,0,false\n".toList []
  intervalsB).toOption.map
    Prod.fst).getD []

/-- `assume inv (b); assert b;` with the tree of the process. -/
def processRun : MLHoudini (Bool × Bool) Unit Unit :=
  { assertsArgumentRun with learner := fun _ => .ok ((decodeText writtenText).getD .null) }

theorem processRun_setup :
    Setup processRun.existentialFunctions processRun.attributes attributesB intervalsB where
  names := List.nodup_singleton _
  scanned := by
    show Scanned [invariantOver ⟨"b", .bool⟩]
    unfold Scanned
    decide +kernel
  count := by decide
  attributesFile := by
    show writeAttributesFile [invariantOver ⟨"b", .bool⟩] =
      .ok (⟨1, [("inv", [("inv$b", .ident 0 .bool)])]⟩, some attributesB)
    rfl
  intervalsFile := by
    show writeIntervalsFile [invariantOver ⟨"b", .bool⟩] = .ok intervalsB
    exact toOption_eq_some.mp (by decide +kernel)

/-- The prover answers with the data point `false` if the conjecture holds there. -/
theorem processRun_extracted {cex : Cex} (hcex : processRun.Extracted values cex) :
    cex = ⟨[("inv", [.boolean false])], []⟩ ∧ truth values ⟨"inv", [0]⟩ := by
  obtain ⟨impl, implementation, env, hitem, henv, n, bound, error, herror, hextract⟩ := hcex
  refine ⟨(Except.ok.inj hextract).symm, ?_⟩
  have hentry : (impl, implementation) ∈ [("main", assertsArgument)] := mem_of_lookup hitem
  obtain ⟨-, rfl⟩ := Prod.mk.inj (List.mem_singleton.mp hentry)
  obtain ⟨domain, hlookup, rfl⟩ : ∃ domain, values.lookup "inv" = some domain ∧
      env = assertsArgument.funcCalls.map fun call => (call, domain) := by
    obtain ⟨entry, hentry, hret⟩ := bind_ok.mp henv
    obtain ⟨domain, hdomain, hpair⟩ := bind_ok.mp hentry
    obtain rfl := Except.ok.inj hpair
    exact ⟨domain, item_ok.mp hdomain, (Except.ok.inj hret).symm⟩
  have hinvalid : ¬ Query.Valid ⟨assertsArgument.funcCalls.map fun call => (call, domain),
      assertsArgument.vc, bound⟩ := by
    intro hvalid
    have hanswer : processRun.prover n _ = _ := if_pos hvalid
    rw [hanswer] at herror
    cases herror
  obtain ⟨i, hi⟩ := not_forall.mp hinvalid
  unfold Query.Holds at hi
  push Not at hi
  obtain ⟨-, hagrees, hvc⟩ := hi
  have hcall := hagrees _ List.mem_cons_self ()
  have hargument : i.1 = true ∧ i.2 = false := by
    cases hfst : i.1 <;> cases hsnd : i.2 <;> simp [assertsArgument, hfst, hsnd] at hvc ⊢
  refine ⟨domain, hlookup, ?_⟩
  have hvalue : domain.model.evalBool [if i.2 then 1 else 0] = i.1 := hcall.symm
  rw [hargument.1, hargument.2] at hvalue
  exact hvalue

theorem processRun_genuine : processRun.Genuine := by
  have hpoint : ∀ {dp : DataPoint}, IsPoint ("inv", [.boolean false]) dp → dp = ⟨"inv", [0]⟩ :=
    fun hdp => (Except.ok.inj hdp).symm
  refine ⟨fun values cex hcex => ?_, fun values cex hcex => ?_, fun values cex hcex => ?_,
    fun values cex hcex => ?_⟩
  all_goals obtain ⟨rfl, htrue⟩ := processRun_extracted hcex
  · refine ⟨fun tup htup => ?_, fun tup htup => (List.not_mem_nil htup).elim⟩
    rw [List.mem_singleton.mp htup]
    exact ⟨_, List.mem_singleton_self _, rfl, rfl⟩
  · intro tup htup dp hdp
    rw [List.append_nil, List.mem_singleton] at htup
    obtain rfl := hpoint (htup ▸ hdp)
    refine ⟨_, List.mem_singleton_self _, rfl, .cons (fun _ => .inl rfl) .nil, ?_⟩
    intro x hx
    cases hx
  · intro tup htup dp hdp
    rw [List.mem_singleton] at htup
    exact hpoint (htup ▸ hdp) ▸ htrue
  · exact fun tup htup => (List.not_mem_nil htup).elim

/-- The process answers to a negative data point. -/
theorem processRun_answers {s : Sample}
    (hdata : s.generateDataFile processRun.existentialFunctions = .ok "0,0,false\n".toList)
    (hhorn : s.generateHornFile = []) : Answers (Option ℚ) processRun.existentialFunctions
      attributesB intervalsB s ((decodeText writtenText).getD .null) := by
  obtain ⟨r, hr⟩ := Option.isSome_iff_exists.mp
    (show (hiceDt (Option ℚ) plainProcess "inv" attributesB
    "0,0,false\n".toList [] intervalsB).toOption.isSome = true by decide +kernel)
  obtain ⟨root, hroot⟩ := Option.isSome_iff_exists.mp
    (show (decodeText writtenText).isSome = true by decide +kernel)
  have htext : writtenText = r.1 := by rw [writtenText, hr, Option.map_some, Option.getD_some]
  refine ⟨plainProcess, "inv", _, r.1, r.2, (fun hprephase => by cases hprephase), hdata, ?_, ?_⟩
  · rw [hhorn]
    exact toOption_eq_some.mp hr
  · rw [← htext, hroot, Option.getD_some]

/-- A run with one call of the learner. -/
theorem processRun_round : ∃ s s' : TeacherState,
    processRun.Run (Option ℚ) attributesB intervalsB [s.function2Value] s' ∧
      s'.numLearnerQueries = 1 := by
  have hrun : (processRun.initialState.toOption.bind fun s =>
    (processRun.learnInvStep s).toOption.map
      fun x => (x.1.isNone, x.2.numLearnerQueries,
        (x.2.sample.generateDataFile processRun.existentialFunctions).toOption,
        x.2.sample.generateHornFile)) = some (true, 1, some "0,0,false\n".toList,
        []) := by decide +kernel
  obtain ⟨s, hs, hrun⟩ := Option.bind_eq_some_iff.mp hrun
  obtain ⟨x, hx, hresult⟩ := Option.map_eq_some_iff.mp hrun
  obtain ⟨hnone, hresult⟩ := Prod.mk.inj hresult
  obtain ⟨hnumber, hresult⟩ := Prod.mk.inj hresult
  obtain ⟨hdata, hhorn⟩ := Prod.mk.inj hresult
  have hstep : processRun.learnInvStep s = .ok (none, x.2) := by
    rw [toOption_eq_some.mp hx, ← Option.isNone_iff_eq_none.mp hnone]
  have hiterates : processRun.Iterates (Option ℚ) attributesB intervalsB s none x.2 := by
    refine ⟨hstep, fun _ root hroot => ?_⟩
    rw [← Except.ok.inj hroot]
    exact processRun_answers (toOption_eq_some.mp hdata) hhorn
  have hfirst : processRun.Run (Option ℚ) attributesB intervalsB [] s :=
    .start (toOption_eq_some.mp hs)
  have hzero : s.numLearnerQueries = 0 := hfirst.length.symm
  exact ⟨s, x.2, hfirst.round hiterates (by omega), hnumber⟩

/-- The function that is true for `true` is a solution. -/
theorem learnInv_keeps_solutions_process : ∃ s' : TeacherState, s'.numLearnerQueries = 1 ∧
    s'.sample.Models (fun dp => dp.value = [1]) ∧ ∀ errors s'',
      ¬ processRun.Iterates (Option ℚ) attributesB intervalsB s' (some ⟨.invalid, errors⟩) s'' := by
  have hsolution : processRun.Solution fun dp => dp.value = [1] := by
    intro values cex hcex hall
    obtain ⟨rfl, -⟩ := processRun_extracted hcex
    exact absurd (hall _ (List.mem_singleton_self _) ⟨"inv", [0]⟩ rfl) (by decide)
  obtain ⟨s, s', hrun, hnumber⟩ := processRun_round
  obtain ⟨hkeeps, hinvalid⟩ := learnInv_keeps_solutions (Option ℚ) processRun processRun_genuine _ _
    processRun_setup _ _ hrun _ hsolution
  exact ⟨s', hnumber, (hkeeps [] s'.sample (fun _ hcex => (List.not_mem_nil hcex).elim) rfl).1,
    hinvalid⟩

end MLHoudini

end HiceDt.Boogie
