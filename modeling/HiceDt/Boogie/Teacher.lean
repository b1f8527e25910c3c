import HiceDt.Boogie.Emit
import HiceDt.Boogie.Files
import HiceDt.Boogie.Translation

/-!
# The main loop of the Boogie teacher

Model of `LearnInv`, `learn` and `HandleCounterExample` (`Boogie/Source/Houdini/MLHoudini.cs`,
lines 921–1130 and 1838–1992). The teacher takes implementations from a worklist, and asks the
prover for counterexamples to their verification conditions and the learner for new
implementations of the existential functions. Verification conditions are given by their
meaning. The prover and the learner are parameters: `n` counts the queries.

Results:

* `learn_spec`: what a call of the learner changes.
* `boundsLoop_spec`: what the queries about an implementation establish.
* `learnInvStep_inv`: implementations outside the worklist stay verified.
* `learnInv_sound`: when the program was verified if the teacher says so.
-/

namespace HiceDt.Boogie

open Loop Dictionary

/-! ## Verification conditions -/

/-- `DecisionTreeDomain` (`HornLearning.cs`, lines 275–309). -/
structure DecisionTreeDomain where
  vars : List String
  model : Expr
deriving DecidableEq, Repr

/-- An entry of `impl2FuncCalls`: a call of an existential function that was replaced by
    `controlVar`, under quantifiers that bind some variables. The bound variables are not in
    scope in `boundcex`, and have the values `free` there. A Boolean argument has the value 0
    or 1. -/
structure FuncCall (Interp Dummies : Type) where
  functionName : String
  controlVar : Interp → Dummies → Bool
  args : List (BoogieType × (Interp → Dummies → ℤ))
  free : Interp → Dummies

/-- `impl2FuncCalls` and `impl2VC` for an implementation. -/
structure Implementation (Interp Dummies : Type) where
  funcCalls : List (FuncCall Interp Dummies)
  vc : Interp → Bool

variable {Interp Dummies Counterexample : Type}

/-- The arguments of type `int`. -/
def FuncCall.integerArgs (call : FuncCall Interp Dummies) :
    List (BoogieType × (Interp → Dummies → ℤ)) :=
  call.args.filter fun arg => arg.1 = .int

/-- The term of `env` for a call: the control variable agrees with `Gamma`. -/
def FuncCall.Agrees (call : FuncCall Interp Dummies) (domain : DecisionTreeDomain) (i : Interp) :
    Prop :=
  ∀ d, call.controlVar i d = domain.model.evalBool (call.args.map fun arg => arg.2 i d)

/-- The terms of `boundcex` for a call. -/
def FuncCall.Within (call : FuncCall Interp Dummies) (bound : ℤ) (i : Interp) : Prop :=
  ∀ arg ∈ call.integerArgs, arg.2 i (call.free i) ≤ bound ∧ -1 * bound ≤ arg.2 i (call.free i)

/-- `finalVC`: if there is a bound and the integer arguments are within the bound, the
    environment implies the verification condition. -/
structure Query (Interp Dummies : Type) where
  env : List (FuncCall Interp Dummies × DecisionTreeDomain)
  vc : Interp → Bool
  bound : Option ℤ

/-- `boundcex`. -/
def Query.Boundcex (q : Query Interp Dummies) (i : Interp) : Prop :=
  match q.bound with
  | none => True
  | some bound => ∀ t ∈ q.env, t.1.Within bound i

/-- The truth of `finalVC`. -/
def Query.Holds (q : Query Interp Dummies) (i : Interp) : Prop :=
  q.Boundcex i → (∀ t ∈ q.env, t.1.Agrees t.2 i) → q.vc i = true

/-- The query holds in every interpretation. -/
def Query.Valid (q : Query Interp Dummies) : Prop := ∀ i, q.Holds i

/-! ## The prover and the teacher -/

/-- `ProverInterface.Outcome`. -/
inductive ProverOutcome where
  | valid
  | invalid
  | timeOut
  | outOfMemory
  | undetermined
deriving DecidableEq, Repr

/-- What the prover does on a query: the counterexamples for which it calls the handler, and
    its outcome. -/
structure Answer (Counterexample : Type) where
  proverOutcome : ProverOutcome
  errors : List Counterexample

/-- `VCGenOutcome`. -/
structure VCGenOutcome (Counterexample : Type) where
  outcome : ProverOutcome
  errors : List Counterexample
deriving DecidableEq

/-- The fields of `MLHoudini` that `LearnInv` reads, with the prover, `P_ExtractState`, the
    learner and `impl2Priority`. The constructor checks the attributes; the names are those of
    a parsed program. -/
structure MLHoudini (Interp Dummies Counterexample : Type) where
  existentialFunctions : List Function
  attributes : Attributes
  name2Impl : List (String × Implementation Interp Dummies)
  function2implAssumed : List (String × List String)
  function2implAsserted : List (String × List String)
  useBounds : Bool
  debug : Bool
  prover : ℕ → Query Interp Dummies → Answer Counterexample
  extractState : String → Counterexample → Except Error Cex
  learner : ℕ → Except Error TreeNode
  impl2Priority : List (String × ℕ)
  attributes_ok : generateAttributesFile existentialFunctions = .ok attributes
  functions_nodup : (existentialFunctions.map Function.name).Nodup
  impls_nodup : (keys name2Impl).Nodup
  identifiers : ∀ f ∈ existentialFunctions, ∀ p ∈ f.inParams, IsIdentifier p.name

/-- The fields that `LearnInv` changes, with the worklist and the numbers of queries. -/
structure TeacherState where
  worklist : List (ℕ × String)
  function2Value : List (String × DecisionTreeDomain)
  sample : Sample
  numProverQueries : ℕ
  numLearnerQueries : ℕ

/-- What the handler changes during a query. -/
structure Collector (Counterexample : Type) where
  sample : Sample
  vcIsValid : Bool := true
  implicationCounterExamples : List Cex := []
  realErrors : List Counterexample := []
  conjectureErrors : List Counterexample := []
  implicationErrors : List Counterexample := []

/-- `d[k]`. -/
def item {υ : Type} (d : List (String × υ)) (k : String) : Except Error υ :=
  match d.lookup k with
  | some v => .ok v
  | none => .error (.runtimeError "KeyNotFoundException")

/-- `Add` for a `SortedSet`; implementations have different priorities. -/
def addSorted (x : ℕ × String) : List (ℕ × String) → List (ℕ × String)
  | [] => [x]
  | y :: l => if x = y then y :: l else if x.1 < y.1 then x :: y :: l else y :: addSorted x l

namespace MLHoudini

variable (h : MLHoudini Interp Dummies Counterexample)

/-! ## `HandleCounterExample` -/

/-- `HandleCounterExample`: whether the error is real, and whether a counterexample was
    added. -/
def handleCounterExample (impl : String) (c : Collector Counterexample) (error : Counterexample) :
    Except Error ((Bool × Bool) × Collector Counterexample) := do
  let c := { c with vcIsValid := false }
  let cex ← h.extractState impl error
  if cex.lhs.isEmpty && cex.rhs.isEmpty then return ((true, false), c)
  else if cex.lhs.isEmpty || cex.rhs.isEmpty then do
    let sample ← c.sample.recordCexForC5 cex true
    return ((false, true), { c with sample := sample })
  else
    return ((false, false),
      { c with implicationCounterExamples := c.implicationCounterExamples ++ [cex] })

/-- `OnCounterexample` (lines 2428–2460). -/
def onCounterexample (impl : String) (c : Collector Counterexample) (error : Counterexample) :
    Except Error (Collector Counterexample) := do
  let ((realError, cexAdded), c) ← h.handleCounterExample impl c error
  return if realError then { c with realErrors := c.realErrors ++ [error] }
    else if cexAdded then { c with conjectureErrors := c.conjectureErrors ++ [error] }
    else { c with implicationErrors := c.implicationErrors ++ [error] }

/-! ## `learn` -/

/-- The loop of `learn` over the existential functions: the functions that have changed, and
    the new implementations. -/
def constructModels (root : TreeNode) :
    List (String × DecisionTreeDomain) → Except Error
      (List String × List (String × DecisionTreeDomain))
  | [] => .ok ([], [])
  | (functionName, domain) :: rest => do
    let model ← constructModel h.debug functionName root h.attributes.attribute2Expr
      (functionID h.existentialFunctions)
    let (funcsChanged, values) ← constructModels root rest
    return (if Expr.equalityComparer domain.vars model domain.model then funcsChanged
      else functionName :: funcsChanged, (functionName, { domain with model := model }) :: values)

/-- `learn`; it returns whether functions have changed. -/
def learn (s : TeacherState) : Except Error (List String × TeacherState) := do
  let s := { s with numLearnerQueries := s.numLearnerQueries + 1 }
  let _ ← s.sample.generateDataFile h.existentialFunctions
  let root ← h.learner s.numLearnerQueries
  if root.isNull then .error (.internalError "Unable to read result of learner")
  else do
    let (funcsChanged, values) ← h.constructModels root s.function2Value
    return (funcsChanged, { s with function2Value := values })

/-! ## `LearnInv` -/

/-- `bounds4cex`. -/
def bounds4cex : List ℤ := if h.useBounds then [2, 5, 10] else []

/-- The bound of the query with number `i`. -/
def boundAt (i : ℕ) : Option ℤ :=
  match h.bounds4cex[i]? with
  | some bound => some bound
  | none => if !h.useBounds then none else some 1000000

/-- The environment of the current conjecture (lines 934–968). -/
def environment (function2Value : List (String × DecisionTreeDomain))
    (funcCalls : List (FuncCall Interp Dummies)) :
    Except Error (List (FuncCall Interp Dummies × DecisionTreeDomain)) :=
  funcCalls.mapM fun call => do
    let domain ← item function2Value call.functionName
    return (call, domain)

/-- Implementations are added to the worklist. -/
def enqueue (names : List String) (worklist : List (ℕ × String)) :
    Except Error (List (ℕ × String)) :=
  names.foldlM (fun worklist name => do
    let priority ← item h.impl2Priority name
    return addSorted (priority, name) worklist) worklist

/-- Implementations are put back into the worklist (lines 1106–1111). -/
def propagate (impl : String) (funcsChanged : List String) (worklist : List (ℕ × String)) :
    Except Error (List (ℕ × String)) := do
  let assumed ← funcsChanged.mapM (item h.function2implAssumed)
  let asserted ← funcsChanged.mapM (item h.function2implAsserted)
  h.enqueue (impl :: (assumed.flatten ++ asserted.flatten)) worklist

/-- Without other counterexamples implications are recorded (lines 1084–1092). -/
def addImplications (c : Collector Counterexample) (s : TeacherState) : Except Error TeacherState :=
  if c.conjectureErrors.isEmpty then do
    debugAssert h.debug (!c.implicationErrors.isEmpty)
    let sample ← c.implicationCounterExamples.foldlM
      (fun sample cex => sample.recordCexForC5 cex true) s.sample
    return { s with sample := sample }
  else .ok s

/-- The reaction to counterexamples (lines 1076–1116). -/
def refine (impl : String) (c : Collector Counterexample) (s : TeacherState) :
    Except Error (Option (VCGenOutcome Counterexample) × TeacherState) :=
  if !c.realErrors.isEmpty then .ok (some ⟨.invalid, c.realErrors⟩, s)
  else do
    let s ← h.addImplications c s
    let (funcsChanged, s) ← h.learn s
    if funcsChanged.isEmpty then
      return (some ⟨.invalid, if c.conjectureErrors.isEmpty then c.implicationErrors
        else c.conjectureErrors⟩, s)
    else do
      let worklist ← h.propagate impl funcsChanged s.worklist
      return (none, { s with worklist := worklist })

/-- The loop over the bounds (lines 982–1122). -/
def boundsLoop (impl : String) (env : List (FuncCall Interp Dummies × DecisionTreeDomain))
    (vc : Interp → Bool) : List ℕ → Bool → TeacherState →
    Except Error (Option (VCGenOutcome Counterexample) × TeacherState)
  | [], _, s => .ok (none, s)
  | i :: rest, hasIntegerVariable, s =>
    if !hasIntegerVariable then boundsLoop impl env vc rest hasIntegerVariable s
    else do
      let terms := env.flatMap fun t => t.1.integerArgs
      let hasIntegerVariable := !(i < h.bounds4cex.length && terms.length = 0)
      let answer := h.prover s.numProverQueries ⟨env, vc, h.boundAt i⟩
      let c ← answer.errors.foldlM (h.onCounterexample impl) { sample := s.sample }
      let s := { s with sample := c.sample, numProverQueries := s.numProverQueries + 1 }
      if answer.proverOutcome = .timeOut ∨ answer.proverOutcome = .outOfMemory then
        return (some ⟨answer.proverOutcome, []⟩, s)
      else if !c.vcIsValid then h.refine impl c s
      else boundsLoop impl env vc rest hasIntegerVariable s

/-- An iteration of the loop over the worklist. -/
def learnInvStep (s : TeacherState) : Except Error
    (Option (VCGenOutcome Counterexample) × TeacherState) :=
  match s.worklist with
  | [] => .ok (some ⟨.valid, []⟩, s)
  | (_, impl) :: worklist => do
    let implementation ← item h.name2Impl impl
    let env ← environment s.function2Value implementation.funcCalls
    h.boundsLoop impl env implementation.vc (List.range (h.bounds4cex.length + 1)) true
      { s with worklist := worklist }

/-- The loop over the worklist; `fuel` bounds the number of iterations. -/
def learnInvLoop : ℕ → TeacherState → Except Error (VCGenOutcome Counterexample × TeacherState)
  | 0, _ => .error .outOfFuel
  | fuel + 1, s => do
    let (outcome, s) ← h.learnInvStep s
    match outcome with
    | some outcome => return (outcome, s)
    | none => learnInvLoop fuel s

/-- The initial conjecture. -/
def initialValue : List (String × DecisionTreeDomain) :=
  h.existentialFunctions.map fun f => (f.name, ⟨f.inParams.map Variable.name, .litBool true⟩)

/-- The state at the beginning: all implementations are in the worklist. -/
def initialState : Except Error TeacherState := do
  let worklist ← h.enqueue (keys h.name2Impl) []
  return ⟨worklist, h.initialValue, {}, 0, 0⟩

/-- `LearnInv`. -/
def learnInv (fuel : ℕ) : Except Error (VCGenOutcome Counterexample × TeacherState) := do
  let s ← h.initialState
  h.learnInvLoop fuel s

end MLHoudini

/-! ## The worklist -/

theorem item_ok {υ : Type} {d : List (String × υ)} {k : String} {v : υ} :
    item d k = .ok v ↔ d.lookup k = some v := by
  unfold item
  cases d.lookup k with
  | none => simp
  | some w => simp

theorem mem_addSorted {x y : ℕ × String} {l : List (ℕ × String)} :
    y ∈ addSorted x l ↔ y = x ∨ y ∈ l := by
  induction l with
  | nil => simp [addSorted]
  | cons z l ih =>
    rw [addSorted]
    split_ifs with heq hlt
    · rw [heq]
      simp
    · simp
    · rw [List.mem_cons, ih, List.mem_cons]
      tauto

namespace MLHoudini

variable {h : MLHoudini Interp Dummies Counterexample}

/-- Everything that is added is in the worklist then, and nothing is lost. -/
theorem enqueue_ok {names : List String} {worklist worklist' : List (ℕ × String)}
    (hrun : h.enqueue names worklist = .ok worklist') :
    (∀ name ∈ worklist.map Prod.snd, name ∈ worklist'.map Prod.snd) ∧
      ∀ name ∈ names, name ∈ worklist'.map Prod.snd := by
  refine foldlM_ok_spec (I := fun done w => (∀ name ∈ worklist.map Prod.snd, name ∈ w.map Prod.snd)
    ∧ ∀ name ∈ done, name ∈ w.map Prod.snd) (fun done a rest w w' _ hw hstep => ?_)
    ⟨fun _ hname => hname, fun name hname => by cases hname⟩ hrun
  obtain ⟨priority, -, hret⟩ := bind_ok.mp hstep
  obtain rfl := Except.ok.inj hret
  obtain ⟨hkeep, hnew⟩ := hw
  have hmem : ∀ name, name = a ∨ name ∈ w.map Prod.snd →
      name ∈ (addSorted (priority, a) w).map Prod.snd := by
    intro name hname
    rw [List.mem_map]
    rcases hname with rfl | hname
    · exact ⟨_, mem_addSorted.mpr (.inl rfl), rfl⟩
    · obtain ⟨x, hx, rfl⟩ := List.mem_map.mp hname
      exact ⟨x, mem_addSorted.mpr (.inr hx), rfl⟩
  refine ⟨fun name hname => hmem name (.inr (hkeep name hname)), fun name hname => ?_⟩
  rcases List.mem_append.mp hname with hname | hname
  · exact hmem name (.inr (hnew name hname))
  · exact hmem name (.inl (List.mem_singleton.mp hname))

/-- `function2implAssumed` and `function2implAsserted` list every implementation with a call of
    the function. -/
def ListsCalls (h : MLHoudini Interp Dummies Counterexample) : Prop :=
  ∀ entry ∈ h.name2Impl, ∀ call ∈ entry.2.funcCalls, ∃ impls,
    (h.function2implAssumed.lookup call.functionName = some impls ∨
      h.function2implAsserted.lookup call.functionName = some impls) ∧ entry.1 ∈ impls

/-- Implementations with a call of a changed function are put back. -/
theorem propagate_ok {impl : String} {funcsChanged : List String}
    {worklist worklist' : List (ℕ × String)} (hlists : h.ListsCalls)
    (hrun : h.propagate impl funcsChanged worklist = .ok worklist') :
    (∀ name ∈ worklist.map Prod.snd, name ∈ worklist'.map Prod.snd) ∧
      impl ∈ worklist'.map Prod.snd ∧
      ∀ entry ∈ h.name2Impl, ∀ call ∈ entry.2.funcCalls, call.functionName ∈ funcsChanged →
        entry.1 ∈ worklist'.map Prod.snd := by
  obtain ⟨assumed, hassumed, hrun⟩ := bind_ok.mp hrun
  obtain ⟨asserted, hasserted, hrun⟩ := bind_ok.mp hrun
  obtain ⟨hkeep, hnew⟩ := enqueue_ok hrun
  have hmem : ∀ {d : List (String × List String)} {lists : List (List String)},
      funcsChanged.mapM (item d) = .ok lists → ∀ {f : String} {impls : List String},
        f ∈ funcsChanged → d.lookup f = some impls → impls ∈ lists := by
    intro d lists hlists f impls hf hlookup
    obtain ⟨impls', himpls', hitem⟩ := forall₂_mem_right (mapM_ok hlists).flip hf
    rw [item_ok, hlookup] at hitem
    rwa [Option.some.inj hitem]
  refine ⟨hkeep, hnew impl List.mem_cons_self, ?_⟩
  intro entry hentry call hcall hchanged
  obtain ⟨impls, hlookup, hin⟩ := hlists entry hentry call hcall
  refine hnew _ (List.mem_cons_of_mem _ (List.mem_append.mpr ?_))
  rcases hlookup with hlookup | hlookup
  · exact .inl (List.mem_flatten.mpr ⟨impls, hmem hassumed hchanged hlookup, hin⟩)
  · exact .inr (List.mem_flatten.mpr ⟨impls, hmem hasserted hchanged hlookup, hin⟩)

/-! ## The conjecture -/

/-- An entry of `function2Value`. -/
def IsValue (h : MLHoudini Interp Dummies Counterexample) (entry : String × DecisionTreeDomain) :
    Prop :=
  ∃ f ∈ h.existentialFunctions, entry.1 = f.name ∧ entry.2.vars = f.inParams.map Variable.name ∧
    Learnt f.inParams.length entry.2.model

/-- The implementation is verified: its unrestricted verification condition is valid. -/
def Verified (function2Value : List (String × DecisionTreeDomain))
    (implementation : Implementation Interp Dummies) : Prop :=
  ∃ env, environment function2Value implementation.funcCalls = .ok env ∧
    Query.Valid ⟨env, implementation.vc, none⟩

/-- The names of the parameters of a function are different, since their attributes are. -/
theorem validNames {f : Function} (hf : f ∈ h.existentialFunctions) :
    ValidNames (f.inParams.map Variable.name) := by
  refine ⟨fun name hname => ?_, ?_⟩
  · obtain ⟨p, hp, rfl⟩ := List.mem_map.mp hname
    exact h.identifiers f hf p hp
  · obtain ⟨-, hentries⟩ := generateAttributesFile_ok h.attributes_ok
    obtain ⟨entry, -, -, hnd⟩ := forall₂_mem_right hentries.flip hf
    rw [Function.declared, keys, List.map_append, List.map_map] at hnd
    have hparams := (List.nodup_append.mp hnd).1
    have hmap : f.inParams.zipIdx.map (Prod.fst ∘ fun x =>
      (attributeName f.name x.1, Expr.ident x.2 x.1.type)) =
        (f.inParams.map Variable.name).map fun name => f.name ++ attributeDelimiter ++ name := by
      have hfst : f.inParams.zipIdx.map Prod.fst = f.inParams := List.zipIdx_map_fst 0 f.inParams
      conv_rhs => rw [← hfst, List.map_map, List.map_map]
      rfl
    rw [hmap] at hparams
    exact List.Nodup.of_map _ hparams

/-- The attributes of a function. -/
theorem attributes_isAttribute {f : Function} (hf : f ∈ h.existentialFunctions)
    {attr2Expr : List (String × Expr)}
    (hlookup : h.attributes.attribute2Expr.lookup f.name = some attr2Expr) :
    ∀ att ∈ attr2Expr, IsAttribute f.inParams.length att.2 := by
  rw [attribute2Expr_eq h.attributes_ok] at hlookup
  obtain ⟨g, hg, heq⟩ := List.mem_map.mp (mem_of_lookup hlookup)
  obtain ⟨hname, rfl⟩ := Prod.mk.inj heq
  obtain rfl := List.inj_on_of_nodup_map h.functions_nodup hg hf hname
  exact fun att hatt => declared_isAttribute hatt

/-- The new entries: functions whose text is unchanged are unchanged. -/
theorem constructModels_spec {root : TreeNode} :
    ∀ {values values' : List (String × DecisionTreeDomain)} {funcsChanged : List String},
      (∀ entry ∈ values, h.IsValue entry) →
      h.constructModels root values = .ok (funcsChanged, values') →
      (∀ entry ∈ values', h.IsValue entry) ∧
        ∀ name ∉ funcsChanged, values'.lookup name = values.lookup name := by
  intro values
  induction values with
  | nil =>
    intro values' funcsChanged _ hrun
    obtain ⟨rfl, rfl⟩ := Prod.mk.inj (Except.ok.inj hrun)
    exact ⟨fun entry hentry => (List.not_mem_nil hentry).elim, fun _ _ => rfl⟩
  | cons entry values ih =>
    obtain ⟨functionName, domain⟩ := entry
    intro values' funcsChanged hvalues hrun
    rw [constructModels] at hrun
    obtain ⟨model, hmodel, hrun⟩ := bind_ok.mp hrun
    obtain ⟨⟨changed, rest⟩, hrest, hrun⟩ := bind_ok.mp hrun
    obtain ⟨hchanged, rfl⟩ := Prod.mk.inj (Except.ok.inj hrun)
    obtain ⟨hvalid, hsame⟩ := ih (fun e he => hvalues e (List.mem_cons_of_mem _ he)) hrest
    obtain ⟨f, hf, hname, hvars, hlearnt⟩ := hvalues _ List.mem_cons_self
    obtain rfl : functionName = f.name := hname
    have hlearnt' : Learnt f.inParams.length model :=
      constructModel_learnt (fun _ => attributes_isAttribute hf) hmodel
    refine ⟨fun e he => ?_, fun name hname => ?_⟩
    · rcases List.mem_cons.mp he with rfl | he
      · exact ⟨f, hf, rfl, hvars, hlearnt'⟩
      · exact hvalid e he
    -- the text decides whether the function has changed
    have hmem : ∀ {x : String}, x ∉ funcsChanged → x ∉ changed := by
      intro x hx hmem
      rw [← hchanged] at hx
      split_ifs at hx
      · exact hx hmem
      · exact hx (List.mem_cons_of_mem _ hmem)
    rw [List.lookup_cons, List.lookup_cons]
    by_cases heq : name = f.name
    · have htext : Expr.equalityComparer domain.vars model domain.model = true := by
        by_contra htext
        rw [if_neg htext] at hchanged
        exact hname (hchanged ▸ heq ▸ List.mem_cons_self)
      have hlen : (f.inParams.map Variable.name).length = f.inParams.length := List.length_map _
      rw [hvars] at htext
      have hmodel' : model = domain.model :=
        Learnt.ext (validNames hf) (hlen ▸ hlearnt') (hlen ▸ hlearnt) htext
      rw [beq_iff_eq.mpr heq, hmodel']
    · rw [beq_eq_false_iff_ne.mpr heq]
      exact hsame name (hmem hname)

/-- A call of the learner: the conjecture changes at most for the functions that are
    returned. -/
theorem learn_spec {s s' : TeacherState} {funcsChanged : List String}
    (hvalues : ∀ entry ∈ s.function2Value, h.IsValue entry)
    (hrun : h.learn s = .ok (funcsChanged, s')) :
    s'.worklist = s.worklist ∧ (∀ entry ∈ s'.function2Value, h.IsValue entry) ∧
      ∀ name ∉ funcsChanged, s'.function2Value.lookup name = s.function2Value.lookup name := by
  unfold learn at hrun
  obtain ⟨_, -, hrun⟩ := bind_ok.mp hrun
  obtain ⟨root, -, hrun⟩ := bind_ok.mp hrun
  split_ifs at hrun
  obtain ⟨⟨changed, values⟩, hmodels, hrun⟩ := bind_ok.mp hrun
  obtain ⟨rfl, rfl⟩ := Prod.mk.inj (Except.ok.inj hrun)
  exact ⟨rfl, constructModels_spec hvalues hmodels⟩

/-! ## Queries about an implementation -/

/-- What the prover promises: it answers, `valid` only for valid formulas, and `invalid` with
    a counterexample. -/
structure ProverCorrect (prover : ℕ → Query Interp Dummies → Answer Counterexample) : Prop where
  valid : ∀ n q, (prover n q).proverOutcome = .valid → q.Valid
  invalid : ∀ n q, (prover n q).proverOutcome = .invalid → (prover n q).errors ≠ []
  determined : ∀ n q, (prover n q).proverOutcome ≠ .undetermined

/-- Without integer arguments all bounds are the same. -/
theorem valid_of_no_terms {env : List (FuncCall Interp Dummies × DecisionTreeDomain)}
    {vc : Interp → Bool} {bound : Option ℤ} (bound' : Option ℤ)
    (hterms : (env.flatMap fun t => t.1.integerArgs).length = 0)
    (hvalid : Query.Valid ⟨env, vc, bound⟩) : Query.Valid ⟨env, vc, bound'⟩ := by
  intro i _ henv
  refine hvalid i ?_ henv
  cases bound with
  | none => trivial
  | some b =>
    intro t ht arg harg
    have hnil := List.eq_nil_of_length_eq_zero hterms
    have hmem : arg ∈ env.flatMap fun t => t.1.integerArgs := List.mem_flatMap.mpr ⟨t, ht, harg⟩
    rw [hnil] at hmem
    cases hmem

theorem onCounterexample_vcIsValid {impl : String} {c c' : Collector Counterexample}
    {error : Counterexample} (hrun : h.onCounterexample impl c error = .ok c') :
    c'.vcIsValid = false := by
  obtain ⟨⟨⟨realError, cexAdded⟩, c₁⟩, hhandle, hrun⟩ := bind_ok.mp hrun
  have h₁ : c₁.vcIsValid = false := by
    obtain ⟨cex, -, hhandle⟩ := bind_ok.mp hhandle
    split_ifs at hhandle
    · obtain ⟨-, rfl⟩ := Prod.mk.inj (Except.ok.inj hhandle)
      rfl
    · obtain ⟨sample, -, hhandle⟩ := bind_ok.mp hhandle
      obtain ⟨-, rfl⟩ := Prod.mk.inj (Except.ok.inj hhandle)
      rfl
    · obtain ⟨-, rfl⟩ := Prod.mk.inj (Except.ok.inj hhandle)
      rfl
  rw [← Except.ok.inj hrun]
  split_ifs
  · exact h₁
  · exact h₁
  · exact h₁

/-- The verification condition counts as valid only if there was no counterexample. -/
theorem errors_of_vcIsValid {impl : String} {errors : List Counterexample} :
    ∀ {c c' : Collector Counterexample}, errors.foldlM (h.onCounterexample impl) c = .ok c' →
      c'.vcIsValid = true → errors = [] := by
  have hkeep : ∀ {errors : List Counterexample} {c c' : Collector Counterexample},
      c.vcIsValid = false → errors.foldlM (h.onCounterexample impl) c = .ok c' →
        c'.vcIsValid = false := fun {errors c c'} hc hrun =>
    foldlM_ok (I := fun c => c.vcIsValid = false)
    (fun _ _ _ _ hstep => onCounterexample_vcIsValid hstep)
      hc hrun
  intro c c' hrun hvalid
  cases errors with
  | nil => rfl
  | cons error errors =>
    rw [List.foldlM_cons] at hrun
    obtain ⟨c₁, hfirst, hrest⟩ := bind_ok.mp hrun
    rw [hkeep (onCounterexample_vcIsValid hfirst) hrest] at hvalid
    cases hvalid

/-- An iteration that finds counterexamples: functions change, and implementations are put
    back into the worklist. -/
def Refined (h : MLHoudini Interp Dummies Counterexample) (impl : String) (s s' : TeacherState) :
    Prop :=
  (∀ entry ∈ s'.function2Value, h.IsValue entry) ∧
    ∃ funcsChanged, h.propagate impl funcsChanged s.worklist = .ok s'.worklist ∧
      ∀ name ∉ funcsChanged, s'.function2Value.lookup name = s.function2Value.lookup name

theorem addImplications_spec {c : Collector Counterexample} {s s' : TeacherState}
    (hrun : h.addImplications c s = .ok s') :
    s'.worklist = s.worklist ∧ s'.function2Value = s.function2Value := by
  unfold addImplications at hrun
  split_ifs at hrun
  · obtain ⟨_, -, hrun⟩ := bind_ok.mp hrun
    obtain ⟨sample, -, hrun⟩ := bind_ok.mp hrun
    obtain rfl := Except.ok.inj hrun
    exact ⟨rfl, rfl⟩
  · obtain rfl := Except.ok.inj hrun
    exact ⟨rfl, rfl⟩

theorem refine_spec {impl : String} {c : Collector Counterexample} {s s' : TeacherState}
    {outcome : Option (VCGenOutcome Counterexample)}
    (hvalues : ∀ entry ∈ s.function2Value, h.IsValue entry)
    (hrun : h.refine impl c s = .ok (outcome, s')) :
    (outcome = none ∧ h.Refined impl s s') ∨ ∃ errors, outcome = some ⟨.invalid, errors⟩ := by
  unfold refine at hrun
  by_cases hreal : (!c.realErrors.isEmpty) = true
  · rw [if_pos hreal] at hrun
    obtain ⟨rfl, -⟩ := Prod.mk.inj (Except.ok.inj hrun)
    exact .inr ⟨_, rfl⟩
  rw [if_neg hreal] at hrun
  obtain ⟨s₁, himpl, hrun⟩ := bind_ok.mp hrun
  obtain ⟨hworklist, hvalue⟩ := addImplications_spec himpl
  obtain ⟨⟨funcsChanged, s₂⟩, hlearn, hrun⟩ := bind_ok.mp hrun
  obtain ⟨hworklist', hvalues', hsame⟩ := learn_spec (hvalue ▸ hvalues) hlearn
  dsimp only at hrun
  by_cases hchanged : funcsChanged.isEmpty = true
  · rw [if_pos hchanged] at hrun
    obtain ⟨rfl, -⟩ := Prod.mk.inj (Except.ok.inj hrun)
    exact .inr ⟨_, rfl⟩
  · rw [if_neg hchanged] at hrun
    obtain ⟨worklist, hpropagate, hrun⟩ := bind_ok.mp hrun
    obtain ⟨rfl, rfl⟩ := Prod.mk.inj (Except.ok.inj hrun)
    rw [hworklist', hworklist] at hpropagate
    exact .inl ⟨rfl, hvalues', funcsChanged, hpropagate, hvalue ▸ hsame⟩

/-- The loop over the bounds: counterexamples are reacted to, or the last query is valid, or
    the program is not verified. -/
theorem boundsLoop_spec (hprover : ProverCorrect h.prover) {impl : String}
    {env : List (FuncCall Interp Dummies × DecisionTreeDomain)} {vc : Interp → Bool} :
    ∀ {rest : List ℕ} {s s' : TeacherState} {outcome : Option (VCGenOutcome Counterexample)},
      (h.bounds4cex.length ∈ rest ∨ Query.Valid ⟨env, vc, h.boundAt h.bounds4cex.length⟩) →
      (∀ entry ∈ s.function2Value, h.IsValue entry) →
      h.boundsLoop impl env vc rest true s = .ok (outcome, s') →
      (outcome = none ∧ s'.worklist = s.worklist ∧ s'.function2Value = s.function2Value ∧
          Query.Valid ⟨env, vc, h.boundAt h.bounds4cex.length⟩) ∨
        (outcome = none ∧ h.Refined impl s s') ∨ ∃ o ∈ outcome, o.outcome ≠ .valid := by
  -- the remaining bounds are not looked at if there are no integer arguments
  have hskip : ∀ {rest : List ℕ} {s s' : TeacherState}
    {outcome : Option (VCGenOutcome Counterexample)},
      h.boundsLoop impl env vc rest false s = .ok (outcome, s') → outcome = none ∧ s' = s := by
    intro rest
    induction rest with
    | nil =>
      intro s s' outcome hrun
      obtain ⟨rfl, rfl⟩ := Prod.mk.inj (Except.ok.inj hrun)
      exact ⟨rfl, rfl⟩
    | cons i rest ih => exact fun hrun => ih hrun
  intro rest
  induction rest with
  | nil =>
    intro s s' outcome hlast _ hrun
    obtain ⟨rfl, rfl⟩ := Prod.mk.inj (Except.ok.inj hrun)
    exact .inl ⟨rfl, rfl, rfl, hlast.resolve_left List.not_mem_nil⟩
  | cons i rest ih =>
    intro s s' outcome hlast hvalues hrun
    rw [boundsLoop, if_neg (by decide)] at hrun
    obtain ⟨c, hc, hrun⟩ := bind_ok.mp hrun
    split_ifs at hrun with hlimit hvc
    · obtain ⟨rfl, -⟩ := Prod.mk.inj (Except.ok.inj hrun)
      refine .inr (.inr ⟨_, rfl, fun hvalid => ?_⟩)
      rcases hlimit with hlimit | hlimit
      · cases hvalid.symm.trans hlimit
      · cases hvalid.symm.trans hlimit
    · rcases @refine_spec _ _ _ h _ _ ⟨s.worklist, s.function2Value, c.sample, _, _⟩ _ _ hvalues
        hrun with
        hrefined | ⟨errors, rfl⟩
      · exact .inr (.inl hrefined)
      · exact .inr (.inr ⟨_, rfl, fun hvalid => ProverOutcome.noConfusion hvalid⟩)
    -- the prover has found no counterexample
    have hnone := errors_of_vcIsValid hc (by simpa using hvc)
    have hquery : Query.Valid ⟨env, vc, h.boundAt i⟩ := by
      refine hprover.valid s.numProverQueries _ ?_
      have hinvalid := hprover.invalid s.numProverQueries ⟨env, vc, h.boundAt i⟩
      have hdetermined := hprover.determined s.numProverQueries ⟨env, vc, h.boundAt i⟩
      cases houtcome : (h.prover s.numProverQueries ⟨env, vc, h.boundAt i⟩).proverOutcome with
      | valid => rfl
      | invalid => exact absurd hnone (hinvalid houtcome)
      | timeOut => exact absurd (.inl houtcome) hlimit
      | outOfMemory => exact absurd (.inr houtcome) hlimit
      | undetermined => exact absurd houtcome hdetermined
    cases hterms : (i < h.bounds4cex.length && (env.flatMap fun t => t.1.integerArgs).length = 0 :
      Bool) with
    | true =>
      rw [hterms] at hrun
      obtain ⟨rfl, rfl⟩ := hskip hrun
      rw [Bool.and_eq_true, decide_eq_true_eq, decide_eq_true_eq] at hterms
      exact .inl ⟨rfl, rfl, rfl, valid_of_no_terms _ hterms.2 hquery⟩
    | false =>
      rw [hterms] at hrun
      refine @ih ⟨s.worklist, s.function2Value, c.sample, _, _⟩ s' outcome
        (hlast.elim (fun hmem => ?_) .inr) hvalues hrun
      rcases List.mem_cons.mp hmem with heq | hmem
      · exact .inr (heq ▸ hquery)
      · exact .inl hmem

/-! ## Runs -/

/-- Implementations that are not in the worklist are verified. -/
structure Inv (h : MLHoudini Interp Dummies Counterexample) (s : TeacherState) : Prop where
  values : ∀ entry ∈ s.function2Value, h.IsValue entry
  verified : ∀ entry ∈ h.name2Impl, entry.1 ∉ s.worklist.map Prod.snd →
    Verified s.function2Value entry.2

/-- If bounds are used: if the verification condition of the next implementation has a
    counterexample, it has one with integer arguments up to 1000000. -/
def BoundSuffices (h : MLHoudini Interp Dummies Counterexample) (s : TeacherState) : Prop :=
  h.useBounds = true → ∀ priority impl worklist implementation env,
    s.worklist = (priority, impl) :: worklist → h.name2Impl.lookup impl = some implementation →
    environment s.function2Value implementation.funcCalls = .ok env →
    (∃ i, ¬ Query.Holds ⟨env, implementation.vc, none⟩ i) →
      ∃ i, ¬ Query.Holds ⟨env, implementation.vc, some 1000000⟩ i

/-- The terms are about the calls. -/
theorem mem_of_environment {values : List (String × DecisionTreeDomain)}
    {calls : List (FuncCall Interp Dummies)} {env : List (FuncCall Interp Dummies ×
      DecisionTreeDomain)} (hrun : environment values calls = .ok env) :
    ∀ t ∈ env, t.1 ∈ calls := by
  intro t ht
  obtain ⟨call, hcall, hstep⟩ := forall₂_mem_right (mapM_ok hrun) ht
  obtain ⟨domain, -, hpair⟩ := bind_ok.mp hstep
  rwa [← Except.ok.inj hpair]

/-- The bound suffices if it holds for all integer arguments. -/
theorem boundSuffices_of_within (hwithin : ∀ entry ∈ h.name2Impl, ∀ call ∈ entry.2.funcCalls,
    ∀ i, call.Within 1000000 i) (s : TeacherState) : h.BoundSuffices s := by
  intro _ _ impl _ implementation env _ hlookup henv hviolated
  obtain ⟨i, hno⟩ := hviolated
  refine ⟨i, fun hholds => hno fun _ => hholds fun t ht => ?_⟩
  exact hwithin _ (mem_of_lookup hlookup) t.1 (mem_of_environment henv t ht) i

/-- The last query is about the verification condition without bounds, or with the bound
    1000000. -/
theorem boundAt_last : h.boundAt h.bounds4cex.length = if h.useBounds then some 1000000
    else none := by
  rw [boundAt, List.getElem?_eq_none le_rfl]
  cases h.useBounds <;> rfl

/-- The environment depends only on the functions that are called. -/
theorem environment_congr {values values' : List (String × DecisionTreeDomain)}
    {calls : List (FuncCall Interp Dummies)}
    (hsame : ∀ call ∈ calls, values'.lookup call.functionName = values.lookup call.functionName) :
    environment values' calls = environment values calls := by
  induction calls with
  | nil => rfl
  | cons call calls ih =>
    have hrest := ih fun c hc => hsame c (List.mem_cons_of_mem _ hc)
    unfold environment at hrest ⊢
    rw [List.mapM_cons, List.mapM_cons, hrest, item, item, hsame call List.mem_cons_self]

/-- An iteration: the worklist is empty, or the first implementation is looked at. -/
theorem learnInvStep_spec (hprover : ProverCorrect h.prover) {s s' : TeacherState}
    {outcome : Option (VCGenOutcome Counterexample)}
    (hvalues : ∀ entry ∈ s.function2Value, h.IsValue entry)
    (hrun : h.learnInvStep s = .ok (outcome, s')) :
    (s.worklist = [] ∧ outcome = some ⟨.valid, []⟩ ∧ s' = s) ∨
      ∃ priority impl worklist implementation env, s.worklist = (priority, impl) :: worklist ∧
        h.name2Impl.lookup impl = some implementation ∧
        environment s.function2Value implementation.funcCalls = .ok env ∧
        ((outcome = none ∧ s'.worklist = worklist ∧ s'.function2Value = s.function2Value ∧
            Query.Valid ⟨env, implementation.vc, h.boundAt h.bounds4cex.length⟩) ∨
          (outcome = none ∧ h.Refined impl { s with worklist := worklist } s') ∨
          ∃ o ∈ outcome, o.outcome ≠ .valid) := by
  unfold learnInvStep at hrun
  match hworklist : s.worklist with
  | [] =>
    rw [hworklist] at hrun
    obtain ⟨rfl, rfl⟩ := Prod.mk.inj (Except.ok.inj hrun)
    exact .inl ⟨rfl, rfl, rfl⟩
  | (priority, impl) :: worklist =>
    rw [hworklist] at hrun
    obtain ⟨implementation, hitem, hrun⟩ := bind_ok.mp hrun
    obtain ⟨env, henv, hrun⟩ := bind_ok.mp hrun
    have hlast : h.bounds4cex.length ∈ List.range (h.bounds4cex.length + 1) :=
      List.mem_range.mpr (Nat.lt_succ_self _)
    have hloop := @boundsLoop_spec _ _ _ h hprover impl env implementation.vc _
      { s with worklist := worklist } s' outcome (.inl hlast) hvalues hrun
    exact .inr ⟨priority, impl, worklist, implementation, env, rfl, item_ok.mp hitem, henv, hloop⟩

/-- An iteration keeps the invariant. -/
theorem learnInvStep_inv (hprover : ProverCorrect h.prover) (hlists : h.ListsCalls)
    {s s' : TeacherState}
    (hinv : h.Inv s) (hbound : h.BoundSuffices s) (hrun : h.learnInvStep s = .ok (none, s')) :
    h.Inv s' := by
  rcases learnInvStep_spec hprover hinv.values hrun with ⟨-, hnone, -⟩ |
    ⟨priority, impl, worklist, implementation, env, hworklist, hitem, henv, hcases⟩
  · cases hnone
  -- an implementation that is neither taken now nor pending
  have hother : ∀ entry ∈ h.name2Impl, entry.1 ≠ impl → entry.1 ∉ worklist.map Prod.snd →
      Verified s.function2Value entry.2 := by
    intro entry hentry hne hnot
    refine hinv.verified entry hentry ?_
    rw [hworklist, List.map_cons, List.mem_cons, not_or]
    exact ⟨hne, hnot⟩
  rcases hcases with ⟨-, hrest, hvalue, hvalid⟩ | ⟨-, hvalues, funcsChanged, hpropagate, hsame⟩
    | ⟨o, ho, -⟩
  · refine ⟨hvalue ▸ hinv.values, fun entry hentry hnot => ?_⟩
    rw [hrest] at hnot
    rw [hvalue]
    by_cases himpl : entry.1 = impl
    · have hentry' : entry.2 = implementation := by
        rw [← himpl, lookup_of_mem h.impls_nodup hentry] at hitem
        exact Option.some.inj hitem
      rw [hentry']
      refine ⟨env, henv, ?_⟩
      rw [boundAt_last] at hvalid
      cases hbounds : h.useBounds with
      | false =>
        rw [hbounds] at hvalid
        exact hvalid
      | true =>
        rw [hbounds] at hvalid
        by_contra hinvalid
        obtain ⟨i, hi⟩ := hbound hbounds _ _ _ _ _ hworklist hitem henv (not_forall.mp hinvalid)
        exact hi (hvalid i)
    · exact hother entry hentry himpl hnot
  · obtain ⟨hkeep, hself, hdeps⟩ := propagate_ok hlists hpropagate
    refine ⟨hvalues, fun entry hentry hnot => ?_⟩
    obtain ⟨env', henv', hvalid⟩ := hother entry hentry (fun heq => hnot (heq ▸ hself))
      fun hmem => hnot (hkeep _ hmem)
    refine ⟨env', ?_, hvalid⟩
    rw [← henv']
    exact environment_congr fun call hcall => hsame _ fun hchanged =>
      hnot (hdeps entry hentry call hcall hchanged)
  · cases ho

/-- The state `s` occurs in a run of `LearnInv`. -/
def Reaches (h : MLHoudini Interp Dummies Counterexample) (s : TeacherState) : Prop :=
  ∃ start, h.initialState = .ok start ∧
    Relation.ReflTransGen (fun s s' => h.learnInvStep s = .ok (none, s')) start s

theorem initialState_inv {s : TeacherState} (hrun : h.initialState = .ok s) : h.Inv s := by
  obtain ⟨worklist, hworklist, hrun⟩ := bind_ok.mp hrun
  obtain rfl := Except.ok.inj hrun
  constructor
  · intro entry hentry
    obtain ⟨f, hf, rfl⟩ := List.mem_map.mp hentry
    exact ⟨f, hf, rfl, rfl, learnt_litBool _ true⟩
  · intro entry hentry hnot
    exact absurd ((enqueue_ok hworklist).2 _ (mem_keys_of_mem hentry)) hnot

theorem Reaches.inv (hprover : ProverCorrect h.prover) (hlists : h.ListsCalls)
    (hbound : ∀ s, h.Reaches s → h.BoundSuffices s) {s : TeacherState} (hs : h.Reaches s) :
    h.Inv s := by
  obtain ⟨start, hstart, hrun⟩ := hs
  induction hrun with
  | refl => exact initialState_inv hstart
  | tail hprev hstep ih =>
    exact learnInvStep_inv hprover hlists ih (hbound _ ⟨start, hstart, hprev⟩) hstep

/-- A run of the loop ends in a state that it reaches. -/
theorem learnInvLoop_reaches {outcome : VCGenOutcome Counterexample} :
    ∀ {fuel : ℕ} {s s' : TeacherState}, h.Reaches s → h.learnInvLoop fuel s = .ok (outcome, s') →
      ∃ last, h.Reaches last ∧ h.learnInvStep last = .ok (some outcome, s') := by
  intro fuel
  induction fuel with
  | zero =>
    intro s s' _ hrun
    cases hrun
  | succ fuel ih =>
    intro s s' hs hrun
    rw [learnInvLoop] at hrun
    obtain ⟨⟨next, t⟩, hstep, hrun⟩ := bind_ok.mp hrun
    cases next with
    | some o =>
      obtain ⟨rfl, rfl⟩ := Prod.mk.inj (Except.ok.inj hrun)
      exact ⟨s, hs, hstep⟩
    | none =>
      obtain ⟨start, hstart, hpath⟩ := hs
      exact ih ⟨start, hstart, hpath.tail hstep⟩ hrun

/-- For every program, every learner and both settings of `useBounds`: if the prover is
    correct, the lists of implementations are complete, and the bound suffices in every
    iteration, all implementations are verified when the teacher says so. -/
theorem learnInv_sound (h : MLHoudini Interp Dummies Counterexample)
    (hprover : ProverCorrect h.prover)
    (hlists : h.ListsCalls) (hbound : ∀ s, h.Reaches s → h.BoundSuffices s) (fuel : ℕ)
    (errors : List Counterexample) (s : TeacherState)
    (hrun : h.learnInv fuel = .ok (⟨.valid, errors⟩, s)) :
    ∀ entry ∈ h.name2Impl, Verified s.function2Value entry.2 := by
  obtain ⟨start, hstart, hrun⟩ := bind_ok.mp hrun
  obtain ⟨last, hlast, hstep⟩ := learnInvLoop_reaches ⟨start, hstart, .refl⟩ hrun
  have hinv := hlast.inv hprover hlists hbound
  intro entry hentry
  rcases learnInvStep_spec hprover hinv.values hstep with ⟨hworklist, -, rfl⟩ |
    ⟨-, -, -, -, -, -, -, -, ⟨hnone, -⟩ | ⟨hnone, -⟩ | ⟨o, ho, hne⟩⟩
  · refine hinv.verified entry hentry ?_
    rw [hworklist]
    exact List.not_mem_nil
  · cases hnone
  · cases hnone
  · rw [← Option.some.inj ho] at hne
    exact absurd rfl hne

/-! ## A prover for finitely many interpretations -/

instance [Fintype Dummies] (call : FuncCall Interp Dummies) (domain : DecisionTreeDomain)
    (i : Interp) :
    Decidable (call.Agrees domain i) :=
  inferInstanceAs (Decidable (∀ d, call.controlVar i d =
    domain.model.evalBool (call.args.map fun arg => arg.2 i d)))

instance (call : FuncCall Interp Dummies) (bound : ℤ) (i : Interp) :
    Decidable (call.Within bound i) :=
  inferInstanceAs (Decidable (∀ arg ∈ call.integerArgs,
    arg.2 i (call.free i) ≤ bound ∧ -1 * bound ≤ arg.2 i (call.free i)))

instance (q : Query Interp Dummies) (i : Interp) : Decidable (q.Boundcex i) :=
  match q with
  | ⟨_, _, none⟩ => inferInstanceAs (Decidable True)
  | ⟨env, _, some bound⟩ => inferInstanceAs (Decidable (∀ t ∈ env, t.1.Within bound i))

instance [Fintype Dummies] (q : Query Interp Dummies) (i : Interp) : Decidable (q.Holds i) :=
  inferInstanceAs (Decidable (q.Boundcex i → (∀ t ∈ q.env, t.1.Agrees t.2 i) → q.vc i = true))

instance [Fintype Interp] [Fintype Dummies] (q : Query Interp Dummies) : Decidable q.Valid :=
  inferInstanceAs (Decidable (∀ i, q.Holds i))

/-- A prover that looks at all interpretations. -/
def exhaustive [Fintype Interp] [Fintype Dummies] (error : Counterexample) (_ : ℕ)
    (q : Query Interp Dummies) : Answer Counterexample :=
  if q.Valid then ⟨.valid, []⟩ else ⟨.invalid, [error]⟩

theorem exhaustive_correct [Fintype Interp] [Fintype Dummies] (error : Counterexample) :
    @ProverCorrect Interp Dummies Counterexample (exhaustive error) where
  valid n q houtcome := by
    unfold exhaustive at houtcome
    split_ifs at houtcome with hvalid
    exact hvalid
  invalid n q houtcome := by
    unfold exhaustive at houtcome ⊢
    split_ifs at houtcome ⊢
    exact List.cons_ne_nil _ _
  determined n q := by
    unfold exhaustive
    split_ifs <;> exact ProverOutcome.noConfusion

/-- A program with one implementation, which assumes one call of an existential function. -/
def assumesCall [Fintype Interp] [Fintype Dummies] (p : Variable) (attributes : Attributes)
    (attributes_ok : generateAttributesFile [invariantOver p] = .ok attributes)
    (identifier : IsIdentifier p.name) (useBounds : Bool)
    (implementation : Implementation Interp Dummies) (cex : Cex) (root : TreeNode) :
    MLHoudini Interp Dummies Unit where
  existentialFunctions := [invariantOver p]
  attributes := attributes
  name2Impl := [("main", implementation)]
  function2implAssumed := [("inv", ["main"])]
  function2implAsserted := [("inv", [])]
  useBounds := useBounds
  debug := true
  prover := exhaustive ()
  extractState _ _ := .ok cex
  learner _ := .ok root
  impl2Priority := [("main", 0)]
  attributes_ok := attributes_ok
  functions_nodup := List.nodup_singleton _
  impls_nodup := List.nodup_singleton _
  identifiers f hf q hq := by
    rw [List.mem_singleton.mp hf] at hq
    rw [List.mem_singleton.mp hq]
    exact identifier

theorem assumesCall_lists [Fintype Interp] [Fintype Dummies] {p : Variable}
    {attributes : Attributes}
    {hattr : generateAttributesFile [invariantOver p] = .ok attributes}
    {hname : IsIdentifier p.name}
    {useBounds : Bool} {implementation : Implementation Interp Dummies} {cex : Cex}
    {root : TreeNode}
    (hcalls : ∀ call ∈ implementation.funcCalls, call.functionName = "inv") :
    (assumesCall p attributes hattr hname useBounds implementation cex root).ListsCalls := by
  intro entry hentry call hcall
  obtain rfl := List.mem_singleton.mp hentry
  refine ⟨["main"], .inl ?_, List.mem_cons_self⟩
  rw [hcalls call hcall]
  rfl

/-- `assume inv (b); assert b;`, given the control variable and `b`. -/
def assertsArgument : Implementation (Bool × Bool) Unit where
  funcCalls := [⟨"inv", fun i _ => i.1, [(.bool, fun i _ => if i.2 then 1 else 0)], fun _ => ()⟩]
  vc i := !i.1 || i.2

/-- The tree of the learner for `b`. -/
def argumentTree : TreeNode :=
  .inner "$func" 0 true 1 fun _ => .inner "inv$b" 0 true 2 fun i => .leaf "" 0 (i = 1)

/-- A run with a negative counterexample. -/
def assertsArgumentRun : MLHoudini (Bool × Bool) Unit Unit :=
  assumesCall ⟨"b", .bool⟩ ⟨1, [("inv", [("inv$b", .ident 0 .bool)])]⟩ rfl
  (by unfold IsIdentifier; decide) false
    assertsArgument ⟨[("inv", [.boolean false])], []⟩ argumentTree

/-- `assume inv (x); assert x = 1;` for `x` 1 or 7, given the control variable and `x = 1`. -/
def assertsOne : Implementation (Bool × Bool) Unit where
  funcCalls := [⟨"inv", fun i _ => i.1, [(.int, fun i _ => if i.2 then 1 else 7)], fun _ => ()⟩]
  vc i := !i.1 || i.2

/-- The tree of the learner for `x ≤ 1`. -/
def smallTree : TreeNode :=
  .inner "$func" 0 true 1 fun _ => .inner "inv$x" 1 false 2 fun i => .leaf "" 0 (i = 0)

/-- A run with bounds, of which 10 is the first one that allows the counterexample. -/
def assertsOneRun : MLHoudini (Bool × Bool) Unit Unit :=
  assumesCall ⟨"x", .int⟩ ⟨1, [("inv", [("inv$x", .ident 0 .int)])]⟩ rfl
  (by unfold IsIdentifier; decide) true
    assertsOne ⟨[("inv", [.integer 7])], []⟩ smallTree

theorem learnInv_sound_argument :
    (∃ s, assertsArgumentRun.learnInv 3 = .ok (⟨.valid, []⟩, s) ∧ s.numLearnerQueries = 1 ∧
      ∀ entry ∈ assertsArgumentRun.name2Impl, Verified s.function2Value entry.2) ∧
    assertsOneRun.useBounds = true ∧
    ∃ s, assertsOneRun.learnInv 3 = .ok (⟨.valid, []⟩, s) ∧ s.numLearnerQueries = 1 ∧
      ∀ entry ∈ assertsOneRun.name2Impl, Verified s.function2Value entry.2 := by
  refine ⟨?_, rfl, ?_⟩
  · have hrun : ∃ s, assertsArgumentRun.learnInv 3 = .ok (⟨.valid, []⟩, s) ∧
      s.numLearnerQueries = 1 := ⟨_, rfl, rfl⟩
    obtain ⟨s, hrun, hqueries⟩ := hrun
    have hlists : assertsArgumentRun.ListsCalls := assumesCall_lists fun call hcall => by
      rw [List.mem_singleton.mp hcall]
    have hbound : ∀ s, assertsArgumentRun.Reaches s → assertsArgumentRun.BoundSuffices s := by
      intro s _ hbounds
      cases hbounds
    exact ⟨s, hrun, hqueries, learnInv_sound _ (exhaustive_correct ()) hlists hbound 3 [] s hrun⟩
  · have hrun : ∃ s, assertsOneRun.learnInv 3 = .ok (⟨.valid, []⟩, s) ∧
      s.numLearnerQueries = 1 := ⟨_, rfl, rfl⟩
    obtain ⟨s, hrun, hqueries⟩ := hrun
    have hlists : assertsOneRun.ListsCalls := assumesCall_lists fun call hcall => by
      rw [List.mem_singleton.mp hcall]
    have hwithin : ∀ entry ∈ assertsOneRun.name2Impl, ∀ call ∈ entry.2.funcCalls,
        ∀ i, call.Within 1000000 i := by
      intro entry hentry call hcall i
      obtain rfl := List.mem_singleton.mp hentry
      obtain rfl := List.mem_singleton.mp hcall
      revert i
      decide
    exact ⟨s, hrun, hqueries, learnInv_sound _ (exhaustive_correct ()) hlists
      (fun s _ => boundSuffices_of_within hwithin s) 3 [] s hrun⟩

/-- `assume inv (1000001); assert false;`, given the control variable. -/
def refutesLarge : Implementation Bool Unit where
  funcCalls := [⟨"inv", fun i _ => i, [(.int, fun _ _ => 1000001)], fun _ => ()⟩]
  vc i := !i

/-- A run with bounds. -/
def refutesLargeRun : MLHoudini Bool Unit Unit :=
  assumesCall ⟨"x", .int⟩ ⟨1, [("inv", [("inv$x", .ident 0 .int)])]⟩ rfl
  (by unfold IsIdentifier; decide) true
    refutesLarge ⟨[("inv", [.integer 1000001])], []⟩ argumentTree

theorem refutesLarge_not_verified : ¬ Verified refutesLargeRun.initialValue refutesLarge := by
  rintro ⟨env, henv, hvalid⟩
  have hcalls : environment refutesLargeRun.initialValue refutesLarge.funcCalls =
      .ok (refutesLarge.funcCalls.map fun call => (call, ⟨["x"], .litBool true⟩)) := rfl
  obtain rfl := Except.ok.inj (hcalls.symm.trans henv)
  exact absurd (hvalid true) (by decide)

/-- The counterexample is out of bounds, and the program counts as verified. -/
theorem learnInv_unsound_bounds : refutesLargeRun.useBounds = true ∧
    ProverCorrect refutesLargeRun.prover ∧ refutesLargeRun.ListsCalls ∧
    ∃ s, refutesLargeRun.learnInv 2 = .ok (⟨.valid, []⟩, s) ∧
      ¬ ∀ entry ∈ refutesLargeRun.name2Impl, Verified s.function2Value entry.2 := by
  have hlists : refutesLargeRun.ListsCalls := assumesCall_lists fun call hcall => by
    rw [List.mem_singleton.mp hcall]
  have hrun : ∃ s, refutesLargeRun.learnInv 2 = .ok (⟨.valid, []⟩, s) ∧
      s.function2Value = refutesLargeRun.initialValue := ⟨_, rfl, rfl⟩
  obtain ⟨s, hrun, hvalue⟩ := hrun
  refine ⟨rfl, exhaustive_correct (), hlists, s, hrun, fun hall => refutesLarge_not_verified ?_⟩
  have hmain := hall ("main", refutesLarge) (List.mem_singleton_self _)
  rwa [hvalue] at hmain

end MLHoudini

end HiceDt.Boogie
