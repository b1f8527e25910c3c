import HiceDt.Boogie.Handover
import HiceDt.Boogie.Recorded
import HiceDt.Boogie.Teacher
import HiceDt.Main.Api
import HiceDt.Main.Indexing

/-!
# The learner process

`learn` (`Boogie/Source/Houdini/MLHoudini.cs`, lines 1893–1993) writes the sample to files, runs
`main` of hice-dt (`hice-dt/src/hice-dt.cpp`, lines 125–480) on them, and reads the tree that this
writes. Here the two programs are put together: what the teacher makes of the answer is compared
with the sample that it has written.

Results:

* `From.ok`, `From.models`: the sample that the learner reads is the one of the teacher.
* `answer_delivers`: the tree of the process, and what the teacher reads.
* `answer_models`: the new implementations satisfy the sample.
-/

namespace HiceDt.Boogie

open Loop Text Dictionary Machine

/-! ## `main` on files -/

/-- The options of the process, how its platform behaves, the number of the round and the bound
    file. -/
structure Process where
  useBounds : Bool
  doHorndiniPrephase : Bool
  env : ℕ → Learner.Environment
  steps : ℕ
  attempts : ℕ
  iterations : ℕ
  status : ℕ
  boundFile : Option ℤ

/-- The names of the categorical attributes in an accepted attributes file. -/
def categoricalNames (content : List Char) : List String :=
  (getlines '\n' content).filterMap fun line =>
    let splitLine := getlines ',' line
    if ¬ isSkipped line ∧ splitLine.headD [] = "cat".toList then
      some (String.ofList (trim (splitLine.getD 1 [])))
    else none

/-- The data points with pointers to them, and the constraints. -/
def Inputs.sample (inputs : Inputs) (hornConstraints : List HornConstraint) : Learner.Sample where
  mem := Main.heapOf inputs.datapoints
  datapoints := Main.pointers inputs.datapoints.length
  hornConstraints := hornConstraints
  numberOfCategories := inputs.metadata.numberOfCategories

/-- The call of the learner on what it reads back. -/
def Process.invocation (p : Process) (inputs : Inputs) (hornConstraints : List HornConstraint) :
    Main.Invocation where
  useBounds := p.useBounds
  doHorndiniPrephase := p.doHorndiniPrephase
  intAttributes := inputs.metadata.intNames.length
  sample := inputs.sample hornConstraints
  intervals := inputs.intervals.map Horndini.halfOpen
  env := p.env
  steps := p.steps
  attempts := p.attempts
  iterations := p.iterations

/-- `main`: the text of the tree and the bound file. The constraints are the same for all copies
    of the data points. -/
def hiceDt (F : Type) [Learner.Score F] (p : Process) (fileStem : String)
    (attributes data horn intervals : List Char) : Except Error (List Char × Option ℤ) := do
  let inputs ← readInputs fileStem attributes data horn intervals
  Main.checkMetadata (p.invocation inputs [])
  let hornConstraints ← indexes2hornConstraints inputs.datapoints.length inputs.hornIndexes
  let finished ← Main.main F (p.invocation inputs hornConstraints) p.status p.boundFile
  let text ← jsonText (categoricalNames attributes) inputs.metadata.intNames finished.tree
  return (text, finished.boundFile)

/-! ## The files of the teacher -/

/-- A parsed program and the files that the constructor writes for it. -/
structure Setup (functions : List Function) (file : Attributes) (attributes intervals : List Char) :
    Prop where
  names : (functions.map Function.name).Nodup
  scanned : Scanned functions
  count : functions.length ≤ maxPrimeArrayLength
  attributesFile : writeAttributesFile functions = .ok (file, some attributes)
  intervalsFile : writeIntervalsFile functions = .ok intervals

/-- The pre-phase is not used for functions with Boolean parameters, or if the first function has
    no parameters. -/
def Process.Suits (p : Process) (functions : List Function) : Prop :=
  p.doHorndiniPrephase = true → FirstHasParameter functions ∧
    ∀ f ∈ functions, ∀ q ∈ f.inParams, q.type ≠ .bool

/-- The teacher writes the sample, and reads `root` after the process has run. -/
def Answers (F : Type) [Learner.Score F] (functions : List Function)
    (attributes intervals : List Char)
    (s : Sample) (root : TreeNode) : Prop :=
  ∃ (p : Process) (fileStem : String) (data text : List Char) (bound : Option ℤ),
  p.Suits functions ∧
    s.generateDataFile functions = .ok data ∧
    hiceDt F p fileStem attributes data s.generateHornFile intervals = .ok (text, bound) ∧
    decodeText text = some root

/-- The values fit the parameters, and sums and differences do not overflow. -/
def Exact (functions : List Function) (dp : DataPoint) : Prop :=
  ∃ f ∈ functions, f.name = dp.functionName ∧ Typed f dp.value ∧ NoOverflow f dp.value

/-- The truth of a function for arguments. -/
def truth (function2Value : List (String × DecisionTreeDomain)) (dp : DataPoint) : Prop :=
  ∃ domain, function2Value.lookup dp.functionName = some domain ∧
  domain.model.evalBool dp.value = true

variable {functions : List Function} {file : Attributes} {attributes intervals : List Char}
  {s : Sample} {dp : DataPoint} {inputs : Inputs} {hcs : List HornConstraint}

theorem Setup.file_ok (h : Setup functions file attributes intervals) :
    generateAttributesFile functions = .ok file := (offset_le h.attributesFile).1

theorem Setup.count_lt (h : Setup functions file attributes intervals) :
    functions.length < 2 ^ 32 := by
  have hcount := h.count
  norm_num [maxPrimeArrayLength] at hcount ⊢
  omega

/-- The learner has the name of the categorical attribute, too. -/
theorem Setup.categoricalNames (h : Setup functions file attributes intervals) :
    categoricalNames attributes = [attributeNameOfExistentialFunctions] := by
  obtain ⟨hfile, -, hlines⟩ := getlines_writeAttributesFile h.scanned h.attributesFile
  have hnames := intNames_ok h.scanned hfile
  have hskipped : isSkipped (catLine functions.length) = false := rfl
  have htrim : trim attributeNameOfExistentialFunctions.toList =
      attributeNameOfExistentialFunctions.toList := trim_eq_self (by decide)
  have hint : (file.metadata.intNames.map intLine ++ [[]]).filterMap (fun line =>
      let splitLine := getlines ',' line
      if ¬ isSkipped line ∧ splitLine.headD [] = "cat".toList then
        some (String.ofList (trim (splitLine.getD 1 [])))
      else none) = [] := by
    refine List.filterMap_eq_nil_iff.mpr fun line hline => if_neg ?_
    rcases List.mem_append.mp hline with hline | hline
    · obtain ⟨name, hname, rfl⟩ := List.mem_map.mp hline
      obtain ⟨hne, hchars⟩ := hnames name hname
      rw [getlines_intLine hne hchars]
      exact fun hcat => absurd (show "int".toList = "cat".toList from hcat.2) (by decide)
    · rw [List.mem_singleton.mp hline]
      exact fun hcat => hcat.1 rfl
  have hcat : ¬ isSkipped (catLine functions.length) = true ∧
      (getlines ',' (catLine functions.length)).headD [] = "cat".toList := by
    rw [hskipped, getlines_catLine]
    exact ⟨Bool.false_ne_true, rfl⟩
  rw [Boogie.categoricalNames, hlines, List.filterMap_cons, hint, if_pos hcat, getlines_catLine]
  show [String.ofList (trim attributeNameOfExistentialFunctions.toList)] = _
  rw [htrim, String.ofList_toList]

/-! ## The sample that is read -/

/-- The inputs come from the sample of the teacher. -/
structure From (functions : List Function) (s : Sample) (inputs : Inputs)
    (hcs : List HornConstraint) :
    Prop where
  length : inputs.datapoints.length = s.c5DataPointsIndex
  point : ∀ i < s.c5DataPointsIndex, ∃ dp label, s.HasIndex dp i ∧
    s.c5samplePointToClassAttr.lookup dp = some label ∧
    Represents functions dp label i (Main.heapOf inputs.datapoints (.point i))
  horn : List.Forall₂ Transfers s.hornClauses hcs
  constraints : indexes2hornConstraints inputs.datapoints.length inputs.hornIndexes = .ok hcs
  categories : inputs.metadata.numberOfCategories = [functions.length]

/-- The object at every position stands for the data point with this index. -/
theorem exists_represented (h : SampleInv functions s) {points : List Datapoint}
    (hall : List.Forall₂ (fun (x : (DataPoint × ℕ) × ℕ) d => Represents functions x.1.1 x.1.2 x.2 d)
      s.c5samplePointToClassAttr.zipIdx points) :
    points.length = s.c5DataPointsIndex ∧ ∀ i < s.c5DataPointsIndex, ∃ dp label, s.HasIndex dp i ∧
      s.c5samplePointToClassAttr.lookup dp = some label ∧
      Represents functions dp label i (Main.heapOf points (.point i)) := by
  have hkeys : s.c5samplePointToClassAttr.length = s.c5DataPointsIndex := by
    have hlen := congrArg List.length h.keys
    rw [keys, keys, List.length_map, List.length_map, h.length] at hlen
    exact hlen
  have hlength : points.length = s.c5DataPointsIndex := by
    rw [← hall.length_eq, List.length_zipIdx, hkeys]
  refine ⟨hlength, fun i hi => ?_⟩
  have hi₁ : i < s.c5samplePointToClassAttr.length := hkeys.symm ▸ hi
  have hi₂ : i < points.length := hlength.symm ▸ hi
  have hrep := hall.get (i := i) (by simpa using hi₁) hi₂
  simp only [List.get_eq_getElem, List.getElem_zipIdx, Nat.zero_add] at hrep
  refine ⟨s.c5samplePointToClassAttr[i].1, s.c5samplePointToClassAttr[i].2, ?_, ?_, ?_⟩
  · exact h.lookup_zipIdx (s.c5samplePointToClassAttr[i], i)
      (List.mem_zipIdx_iff_getElem?.mpr (List.getElem?_eq_getElem hi₁))
  · exact lookup_of_mem (h.keys ▸ h.nodup) (List.getElem_mem hi₁)
  · rw [Main.heapOf, List.getD_eq_getElem _ _ hi₂]
    exact hrep

/-- The learner accepts the files, and reads the sample. -/
theorem readInputs_from (hsetup : Setup functions file attributes intervals)
    (h : SampleInv functions s)
    (fileStem : String) : ∃ data inputs hcs, s.generateDataFile functions = .ok data ∧
      readInputs fileStem attributes data s.generateHornFile intervals = .ok inputs ∧
      From functions s inputs hcs ∧ inputs.metadata = file.metadata ∧
      inputs.intervals = learnerIntervals functions 0 := by
  obtain ⟨data, points, hdata, hread, hall⟩ := readInputs_handover hsetup.names hsetup.scanned
    hsetup.count_lt hsetup.attributesFile hsetup.intervalsFile h fileStem
  obtain ⟨hlength, hpoint⟩ := exists_represented h hall
  obtain ⟨hcs, hconstraints, htransfers⟩ := @indexes2hornConstraints_clauseIndexes points.length
    s.hornClauses fun c hc => hlength ▸ (h.clauses c hc).2
  refine ⟨data, _, hcs, hdata, hread, ⟨hlength, hpoint, htransfers, hconstraints, ?_⟩, rfl, rfl⟩
  rw [Attributes.metadata, (generateAttributesFile_ok hsetup.file_ok).1]

/-- The object at a pointer stands for a data point. -/
theorem From.exists_point (h : From functions s inputs hcs) {x : Ptr}
    (hx : x ∈ (inputs.sample hcs).datapoints) : ∃ i dp label, i < s.c5DataPointsIndex ∧
      x = .point i ∧ s.HasIndex dp i ∧ s.c5samplePointToClassAttr.lookup dp = some label ∧
      Represents functions dp label i ((inputs.sample hcs).mem x) := by
  obtain ⟨i, hi, rfl⟩ := List.mem_map.mp hx
  have hlt : i < s.c5DataPointsIndex := h.length ▸ List.mem_range.mp hi
  obtain ⟨dp, label, hindex, hlabel, hrep⟩ := h.point i hlt
  exact ⟨i, dp, label, hlt, rfl, hindex, hlabel, hrep⟩

/-- A data point has an object. -/
theorem From.of_hasIndex (h : From functions s inputs hcs) (hs : SampleInv functions s) {i : ℕ}
    (hi : s.HasIndex dp i) : .point i ∈ (inputs.sample hcs).datapoints ∧ ∃ label,
      s.c5samplePointToClassAttr.lookup dp = some label ∧
      Represents functions dp label i ((inputs.sample hcs).mem (.point i)) := by
  have hlt := hs.index_lt hi
  obtain ⟨dp', label, hindex, hlabel, hrep⟩ := h.point i hlt
  obtain rfl := hs.unique_index hi hindex
  exact ⟨List.mem_map_of_mem (List.mem_range.mpr (h.length.symm ▸ hlt)), label, hlabel, hrep⟩

/-- The sample is one of the teacher's rows. -/
theorem From.isSample (h : From functions s inputs hcs)
    (hexact : ∀ dp i, s.HasIndex dp i → Exact functions dp) :
    IsSample functions (inputs.sample hcs).mem (inputs.sample hcs).datapoints := by
  intro x hx
  obtain ⟨i, dp, label, -, -, hindex, -, category, fields, hrow, hd⟩ := h.exists_point hx
  obtain ⟨f, hf, hname, htyped, -⟩ := hexact dp i hindex
  refine ⟨f, hf, dp.value, htyped, category, ?_, ?_⟩
  · rw [hname, hd]
    exact hrow
  · rw [hd]

theorem indexes2hornConstraints_satisfiable {size : ℕ} {hornIndexes : List (Finset ℕ × Finset ℕ)}
    (hrun : indexes2hornConstraints size hornIndexes = .ok hcs) : ∀ hc ∈ hcs,
      hc.satisfiable = false := by
  intro hc hhc
  obtain ⟨x, -, hx⟩ := forall₂_mem_right (mapM_ok hrun) hhc
  obtain ⟨premises, -, hx⟩ := bind_ok.mp hx
  split at hx
  · rw [← Except.ok.inj hx]
  · obtain ⟨consequent, -, hret⟩ := bind_ok.mp hx
    rw [← Except.ok.inj hret]

/-- The sample is one that the learner accepts. -/
theorem From.ok (h : From functions s inputs hcs) (hnd : (functions.map Function.name).Nodup)
    (hexact : ∀ dp i, s.HasIndex dp i → Exact functions dp) :
    (inputs.sample hcs).Ok (offset functions) := by
  have hscope := Main.indexes2hornConstraints_scope h.constraints
  have hsample := h.isSample hexact
  refine ⟨⟨?_, ?_, hscope.1, hscope.2, indexes2hornConstraints_satisfiable
    h.constraints, by simp, by simp, by simp, fun x hx => ?_⟩, hsample.arity hnd, fun x hx => ?_⟩
  · intro hmem
    obtain ⟨i, -, hi⟩ := List.mem_map.mp hmem
    cases hi
  · simp [Inputs.sample, Main.heapOf, HiceDt.label, Datapoint.label]
  · cases x with
    | falseDatapoint => exact absurd rfl hx
    | point i =>
      by_cases hi : i < s.c5DataPointsIndex
      · obtain ⟨dp, label, -, -, category, fields, -, hd⟩ := h.point i hi
        show (Main.heapOf inputs.datapoints (.point i)).listOfMarking = [] ∧
          (Main.heapOf inputs.datapoints (.point i)).listOfHornConstraints = []
        rw [hd]
        exact ⟨rfl, rfl⟩
      · have hout : Main.heapOf inputs.datapoints (.point i) = {} := by
          refine List.getD_eq_default _ _ ?_
          rw [h.length]
          omega
        show (Main.heapOf inputs.datapoints (.point i)).listOfMarking = [] ∧
          (Main.heapOf inputs.datapoints (.point i)).listOfHornConstraints = []
        rw [hout]
        exact ⟨rfl, rfl⟩
  · have hcategory := hsample.category_lt hnd x hx
    show _ < inputs.metadata.numberOfCategories.getD 0 0
    rw [h.categories]
    exact hcategory

/-- A labelling that is consistent with the sample of the learner satisfies the one of the
    teacher. -/
theorem From.models (h : From functions s inputs hcs) (hs : SampleInv functions s) {ν : Ptr → Bool}
    (hν : Solver.Consistent (inputs.sample hcs).mem (inputs.sample hcs).datapoints hcs [] [] ν)
    {holds : DataPoint → Prop} (hholds : ∀ dp i, s.HasIndex dp i →
      (holds dp ↔ ν (.point i) = true)) :
    s.Models holds := by
  obtain ⟨hlabels, -, -, hclauses⟩ := hν
  constructor
  · intro dp label hlabel
    have hmem : dp ∈ keys s.c5samplePointToIndex := hs.keys ▸ mem_keys_of_mem (mem_of_lookup hlabel)
    obtain ⟨i, hi⟩ : ∃ i, s.HasIndex dp i :=
      Option.ne_none_iff_exists'.mp fun hnone => not_mem_keys_iff.mpr hnone hmem
    obtain ⟨hx, label', hlabel', category, fields, -, hd⟩ := h.of_hasIndex hs hi
    obtain rfl := Option.some.inj (hlabel.symm.trans hlabel')
    rw [hholds dp i hi]
    have hset : label ≠ 0 → ν (.point i) = decide (label = 1) := by
      intro hne
      refine hlabels _ hx _ ?_
      rw [HiceDt.label, hd]
      simp [Datapoint.label, hne]
    refine ⟨fun hone => ?_, fun htwo => ?_⟩
    · rw [hset (by omega), hone]
      rfl
    · rw [hset (by omega), htwo]
      decide
  · rintro clause hclause hall
    obtain ⟨hc, hhc, ht⟩ := forall₂_mem_right h.horn.flip hclause
    have hprem : ∀ x ∈ hc.premises, ν x = true := by
      intro x hx
      obtain ⟨i, hi, rfl⟩ := (ht.premises x).mp hx
      obtain ⟨dp, label, hindex, -, -⟩ := h.point i ((hs.clauses clause hclause).2.1 i hi)
      exact (hholds dp i hindex).mp (hall i hi dp hindex)
    obtain ⟨c, hconc, hc'⟩ := hclauses hc hhc hprem
    rw [ht.conclusion] at hconc
    obtain ⟨i, hi, rfl⟩ := Option.map_eq_some_iff.mp hconc
    obtain ⟨dp, label, hindex, -, -⟩ := h.point i ((hs.clauses clause hclause).2.2 i hi)
    exact ⟨i, hi, dp, hindex, (hholds dp i hindex).mpr hc'⟩

/-- The attributes are 32-bit numbers. -/
theorem From.int_isInt32 (h : From functions s inputs hcs) (hs : SampleInv functions s)
    (hnd : (functions.map Function.name).Nodup) {x : Ptr} (hx : x ∈ (inputs.sample hcs).datapoints)
    (attr : ℕ) : IsInt32 (((inputs.sample hcs).mem x).int attr) := by
  obtain ⟨i, dp, label, -, -, hindex, -, category, fields, hrow, hd⟩ := h.exists_point hx
  have hknown := hs.known dp (mem_keys_of_mem (mem_of_lookup hindex))
  obtain ⟨before, f, after, -, -, -, hrow'⟩ := hknown.row hnd
  obtain ⟨-, hfields⟩ := Prod.mk.inj (Except.ok.inj (hrow.symm.trans hrow'))
  rw [hd, Datapoint.int, List.getD_eq_getElem?_getD]
  by_cases hattr : attr < fields.length
  · rw [List.getElem?_eq_getElem hattr]
    have hall : ∀ x ∈ fields, IsInt32 x := hfields ▸ fields_isInt32 hknown.2
    exact hall _ (List.getElem_mem hattr)
  · rw [List.getElem?_eq_none (Nat.not_lt.mp hattr)]
    exact ⟨by norm_num, by norm_num⟩

/-! ## The tree of the process -/

/-- The tree fits the sample, it splits by function, the cuts are 32-bit numbers, and the
    expressions of the teacher say what its subtrees output. -/
structure Delivers (functions : List Function) (file : Attributes) (sample : Learner.Sample)
    (t : Tree) :
    Prop where
  fits : sample.Fits t
  splits : t = .leaf true ∨ ∃ children, t = .categorical 0 functions.length children
  thresholds : t.Thresholds fun _ threshold => IsInt32 threshold
  agrees : ∀ debug before f after c, functions = before ++ f :: after →
    t.child before.length = some c → c.isNull = false → TranslatesExactly debug functions file f t

variable {F : Type} [Learner.Score F] {sample : Learner.Sample} {t : Tree}

/-- The runs behind an attempt. -/
theorem attempt_learns {env : Learner.Environment} {steps k : ℕ} {threshold : Option ℤ}
    (h : sample.Ok k) (hrun : Learner.attempt F env sample steps threshold = .ok t) :
    ∃ (bound : List HornConstraint) (s₁ s' : Learner.LearnerState F),
      Solver.ValidInput sample.mem sample.datapoints (sample.hornConstraints ++ bound) [] [] ∧
      Learner.initialRun env (sample.settings bound threshold) sample.fresh = .ok s₁ ∧
      s₁.datapointPtrs = sample.datapoints ∧
      Learner.learn env (sample.settings bound threshold) steps s₁ = .ok (t, s') := by
  obtain ⟨bound, hbound, hscope⟩ := h.boundConstraints threshold
  have hv := h.validInput hscope
  unfold Learner.attempt at hrun
  obtain ⟨bound', hbound', hrun⟩ := bind_ok.mp hrun
  obtain rfl := Except.ok.inj (hbound.symm.trans hbound')
  obtain ⟨s₁, hinit, hrun⟩ := bind_ok.mp hrun
  obtain ⟨⟨t', s'⟩, hlearn, hrun⟩ := bind_ok.mp hrun
  obtain ⟨b, -, hrun⟩ := bind_ok.mp hrun
  obtain ⟨_, -, hret⟩ := bind_ok.mp hrun
  obtain rfl := Except.ok.inj hret
  refine ⟨bound, s₁, s', hv, hinit, ?_, hlearn⟩
  rcases Learner.initialRun_spec env (sample.settings bound threshold)
    (sample.fresh : Learner.LearnerState F) hv with ⟨-, st, hok, -⟩ | ⟨-, herr⟩
  · rw [← Except.ok.inj (hok.symm.trans hinit)]
    rfl
  · rw [herr] at hinit
    cases hinit

/-- The tree of an attempt. -/
theorem attempt_delivers (h : From functions s inputs hcs) (hs : SampleInv functions s)
    (hnd : (functions.map Function.name).Nodup)
    (hfile : generateAttributesFile functions = .ok file)
    (hexact : ∀ dp i, s.HasIndex dp i → Exact functions dp) {env : Learner.Environment} {steps : ℕ}
    {threshold : Option ℤ} (hrun : Learner.attempt F env (inputs.sample hcs) steps threshold =
      .ok t) :
    Delivers functions file (inputs.sample hcs) t := by
  have hok := h.ok hnd hexact
  have hsample := h.isSample hexact
  obtain ⟨bound, s₁, s', hv, hinit, hptrs, hlearn⟩ := attempt_learns hok hrun
  have hshape : t = .leaf true ∨ ∃ children, t = .categorical 0 functions.length children ∧
      ∀ i, (children i).Cuts fun d =>
        Learner.InSample (inputs.sample hcs).datapoints (inputs.sample hcs).mem d ∧
        d.category 0 = i := by
    by_cases hempty : (inputs.sample hcs).datapoints = []
    · rw [Learner.learn, if_pos (by rw [hptrs, hempty]; rfl)] at hlearn
      exact .inl (Prod.mk.inj (Except.ok.inj hlearn)).1.symm
    · obtain ⟨children, rfl, hchildren⟩ := Learner.learn_shaped hv rfl rfl hempty
        (hsample.arity hnd) hinit hlearn
      refine .inr ⟨children, ?_, fun i => (hchildren i).1⟩
      show Tree.categorical 0 (inputs.metadata.numberOfCategories.getD 0 0) children = _
      rw [h.categories]
      rfl
  refine ⟨Main.attempt_fits hok hrun, hshape.imp_right fun hshape => ?_, ?_, ?_⟩
  · obtain ⟨children, rfl, -⟩ := hshape
    exact ⟨children, rfl⟩
  · rcases hshape with rfl | ⟨children, rfl, hchildren⟩
    · trivial
    · refine fun i => (hchildren i).thresholds ?_
      rintro attr cut d d' ⟨⟨x, hx, hcore⟩, -⟩ ⟨⟨x', hx', hcore'⟩, -⟩ hle hlt
      rw [Learner.int_congr hcore] at hle
      rw [Learner.int_congr hcore'] at hlt
      exact ⟨(h.int_isInt32 hs hnd hx attr).1.trans hle,
        hlt.trans (h.int_isInt32 hs hnd hx' attr).2⟩
  · rintro debug before f after c rfl hc hnull
    exact learn_translatesExactly debug hnd hfile hv rfl rfl hsample h.categories hinit hlearn hc
      hnull

/-- A tree of the pre-phase was checked. -/
theorem prephase_ok {inv : Main.Invocation} (hrun : Main.prephase inv = .ok (some t)) :
    inv.doHorndiniPrephase = true ∧
      Horndini.horndiniPrephase inv.sample.mem inv.sample.datapoints inv.sample.hornConstraints
        (inv.sample.numberOfCategories.getD 0 0) inv.intervals inv.iterations = .ok t ∧
      Learner.isConsistent t inv.sample.datapoints inv.sample.hornConstraints inv.sample.mem =
        .ok true := by
  unfold Main.prephase at hrun
  split_ifs at hrun with hprephase
  swap
  · cases hrun
  cases htry : Main.tryHorndini inv with
  | error e =>
    rw [htry] at hrun
    cases e <;> cases hrun
  | ok result =>
    rw [htry] at hrun
    obtain rfl := Except.ok.inj hrun
    obtain ⟨_, -, htry⟩ := bind_ok.mp htry
    obtain ⟨tree, htree, htry⟩ := bind_ok.mp htry
    obtain ⟨consistent, hconsistent, hret⟩ := bind_ok.mp htry
    cases consistent with
    | false => cases Except.ok.inj hret
    | true =>
      obtain rfl := Option.some.inj (Except.ok.inj hret)
      exact ⟨hprephase, htree, hconsistent⟩

/-- The cuts of the pre-phase are between -2 and 1. -/
theorem conjunctions2tree_thresholds (n : ℕ) (intervals : List (ℕ × ℕ)) (X : List (List ℕ)) :
    (Horndini.conjunctions2tree n (Horndini.generateDerivedPredicates intervals 1) X).Thresholds
      fun _ threshold => IsInt32 threshold := by
  have hpredicate : ∀ c, -1 ≤ (Horndini.predicateAt (Horndini.generateDerivedPredicates intervals 1)
    c).threshold ∧
      (Horndini.predicateAt (Horndini.generateDerivedPredicates intervals 1) c).threshold ≤ 1 := by
    intro c
    rw [Horndini.predicateAt, List.getD_eq_getElem?_getD]
    cases hget : (Horndini.generateDerivedPredicates intervals 1)[c]? with
    | none => exact ⟨by decide, by decide⟩
    | some p =>
      obtain ⟨interval, -, hp⟩ := List.mem_flatMap.mp (List.mem_of_getElem? hget)
      obtain ⟨-, hp⟩ := Horndini.mem_intervalPredicates_iff.mp hp
      obtain ⟨i, hi, hp⟩ := List.mem_flatMap.mp hp
      have hrange : i ∈ (List.range (2 * (1 : ℤ) + 1).toNat).flatMap fun a : ℕ => [(a : ℤ)] := hi
      obtain ⟨a, ha, hai⟩ := List.mem_flatMap.mp hrange
      have hlt : a < 3 := List.mem_range.mp ha
      obtain rfl := List.mem_singleton.mp hai
      have hthreshold : p.threshold = -1 + a := by
        simp only [List.mem_cons, List.not_mem_nil, or_false] at hp
        rcases hp with hp | hp | hp
        · exact congrArg Horndini.DerivedPredicate.threshold hp
        · exact congrArg Horndini.DerivedPredicate.threshold hp
        · exact congrArg Horndini.DerivedPredicate.threshold hp
      rw [Option.getD_some, hthreshold]
      omega
  intro i
  dsimp only
  cases X[i]? with
  | none => trivial
  | some conjunction =>
    refine (Horndini.conjunction2tree_thresholds _ _ _).mpr fun c _ => ?_
    obtain ⟨hge, hle⟩ := hpredicate c
    refine ⟨fun _ => ⟨?_, ?_⟩, fun _ => ⟨?_, ?_⟩⟩ <;> norm_num <;> omega

/-- The intervals that the learner reads are those of the functions. -/
theorem Setup.intervals_halfOpen (h : Setup functions file attributes intervals)
    (hfirst : FirstHasParameter functions) :
    generateIntervalsFile functions = .ok ((learnerIntervals functions 0).map
      Horndini.halfOpen) := by
  obtain ⟨hfile, hbound⟩ := offset_le h.attributesFile
  have htypes := fun g (hg : g ∈ functions) => generateAttributesFile_types hfile hg
  obtain ⟨halfOpen, hloop, -⟩ := intervalsLoop_eq functions htypes 0
  rw [learnerIntervals_halfOpen htypes hloop (by omega) fun f hf => ?_]
  · exact hloop
  · rw [Nat.zero_add]
    exact declared_pos (hfirst f hf)

/-- The tree of the pre-phase. -/
theorem prephase_delivers (hsetup : Setup functions file attributes intervals)
    (h : From functions s inputs hcs) (hexact : ∀ dp i, s.HasIndex dp i → Exact functions dp)
    (hintervals : inputs.intervals = learnerIntervals functions 0) {p : Process}
    (hp : p.Suits functions) (hrun : Main.prephase (p.invocation inputs hcs) = .ok (some t)) :
    Delivers functions file (inputs.sample hcs) t := by
  have hok := h.ok hsetup.names hexact
  have hsample := h.isSample hexact
  obtain ⟨hprephase, htree, hconsistent⟩ := prephase_ok hrun
  obtain ⟨hfirst, hbool⟩ := hp hprephase
  have hfile := hsetup.intervals_halfOpen hfirst
  rw [← hintervals] at hfile
  obtain ⟨hlen, -⟩ := generateIntervalsFile_ok hsetup.file_ok hfile
  have hcat : ∀ x ∈ (inputs.sample hcs).datapoints,
      ((inputs.sample hcs).mem x).category 0 < (inputs.intervals.map Horndini.halfOpen).length := by
    rw [hlen]
    exact hsample.category_lt hsetup.names
  obtain ⟨X, hX, heq, -, -⟩ := Horndini.horndiniPrephase_ok hcat hok.valid.premises
    hok.valid.conclusion htree
  rw [hlen] at heq hX
  have hout := fun x (hx : x ∈ (inputs.sample hcs).datapoints) => @Horndini.conjunctions2tree_output
    ((inputs.sample hcs).mem x) (Horndini.generateDerivedPredicates
    (inputs.intervals.map Horndini.halfOpen) 1)
      functions.length X hX.le (hX ▸ hlen ▸ hcat x hx)
  refine ⟨?_, .inr ⟨_, heq⟩, ?_, ?_⟩
  · obtain ⟨b, hb, hfits⟩ := Main.isConsistent_ok t hok.valid (by rw [heq]; rfl)
      (by rw [heq]; exact hout)
    obtain rfl := Except.ok.inj (hb.symm.trans hconsistent)
    exact hfits rfl
  · rw [heq]
    exact conjunctions2tree_thresholds _ _ _
  · rintro debug before f after c rfl - -
    refine (prephase_translates debug hsetup.names hsetup.file_ok hsample hok.valid.premises
      hok.valid.conclusion hfile htree).1 ?_
    exact hbool f (List.mem_append_right _ List.mem_cons_self)

/-- `main` returns a tree of the pre-phase or of an attempt. -/
theorem main_cases {inv : Main.Invocation} {status : ℕ} {boundFile : Option ℤ} {r : Main.Finished}
    (hrun : Main.main F inv status boundFile = .ok r) :
    Main.prephase inv = .ok (some r.tree) ∨
      ∃ n threshold, Learner.attempt F (inv.env n) inv.sample inv.steps threshold = .ok r.tree := by
  obtain ⟨_, -, hrun⟩ := bind_ok.mp hrun
  obtain ⟨result, hprephase, hrun⟩ := bind_ok.mp hrun
  cases result with
  | some tree =>
    obtain rfl := Except.ok.inj hrun
    exact .inl hprephase
  | none =>
    obtain ⟨start, -, hrun⟩ := bind_ok.mp hrun
    obtain ⟨⟨tree, last⟩, hsearch, hrun⟩ := bind_ok.mp hrun
    obtain rfl := Except.ok.inj hrun
    obtain ⟨i, -, -, hattempt, -⟩ := Main.boundSearch_ok hsearch
    exact .inr ⟨_, _, hattempt⟩

/-! ## What the teacher reads -/

theorem TreeNode.isNull_trim (node : TreeNode) : node.trim.isNull = node.isNull := by
  cases node <;> rfl

/-- The teacher does not look behind the children of a node. -/
theorem pathFormulas_trim (debug : Bool) (attr2Expr : List (String × Expr)) (node : TreeNode) :
    ∀ path, pathFormulas debug attr2Expr node.trim path = pathFormulas debug attr2Expr node
      path := by
  induction node with
  | null => exact fun _ => rfl
  | leaf attr cut classification => exact fun _ => rfl
  | inner attr cut classification length children ih =>
    intro path
    rw [TreeNode.trim, pathFormulas, pathFormulas]
    by_cases hlength : length < 2
    · have hdec : (decide (length = 2) : Bool) = false := decide_eq_false (by omega)
      simp only [if_pos hlength, hdec, Bool.false_and]
    · simp only [if_pos (show 0 < length by omega), if_pos (show 1 < length by omega),
        TreeNode.isNull_trim, ih]

theorem constructModel_trim (debug : Bool) (functionName : String) (root : TreeNode)
    (attribute2Expr : List (String × List (String × Expr))) (ids : List (String × ℕ)) :
    constructModel debug functionName root.trim attribute2Expr ids =
      constructModel debug functionName root attribute2Expr ids := by
  cases root with
  | null => rfl
  | leaf attr cut classification => rfl
  | inner attr cut classification length children =>
    rw [TreeNode.trim, constructModel, constructModel]
    congr 1
    funext _
    congr 1
    funext _
    split_ifs with hattr
    · rfl
    · cases ids.lookup functionName with
      | none => rfl
      | some i =>
        cases attribute2Expr.lookup functionName with
        | none => rfl
        | some attr2Expr =>
          by_cases hi : length ≤ i
          · simp only [if_pos hi]
          · simp only [if_neg hi, if_pos (Nat.not_le.mp hi), TreeNode.isNull_trim,
              constructBoogieExpr, pathFormulas_trim]

variable {Interp Dummies Counterexample : Type} {h : MLHoudini Interp Dummies Counterexample}

/-- The new implementation of a function. -/
theorem constructModels_lookup {root : TreeNode} {values : List (String × DecisionTreeDomain)} :
    ∀ {values' : List (String × DecisionTreeDomain)} {funcsChanged : List String},
      h.constructModels root values = .ok (funcsChanged, values') →
      keys values' = keys values ∧ ∀ entry ∈ values', constructModel h.debug entry.1 root
        h.attributes.attribute2Expr (functionID h.existentialFunctions) = .ok entry.2.model := by
  induction values with
  | nil =>
    intro values' funcsChanged hrun
    obtain ⟨-, rfl⟩ := Prod.mk.inj (Except.ok.inj hrun)
    exact ⟨rfl, fun entry hentry => by cases hentry⟩
  | cons entry values ih =>
    obtain ⟨functionName, domain⟩ := entry
    intro values' funcsChanged hrun
    rw [MLHoudini.constructModels] at hrun
    obtain ⟨model, hmodel, hrun⟩ := bind_ok.mp hrun
    obtain ⟨⟨changed, rest⟩, hrest, hrun⟩ := bind_ok.mp hrun
    obtain ⟨-, rfl⟩ := Prod.mk.inj (Except.ok.inj hrun)
    obtain ⟨hkeys, hall⟩ := ih hrest
    exact ⟨congrArg (functionName :: ·) hkeys, List.forall_mem_cons.mpr ⟨hmodel, hall⟩⟩

/-- The process has written a tree that fits the sample, and the teacher reads its nodes. -/
theorem answer_delivers (hsetup : Setup functions file attributes intervals)
    (hs : SampleInv functions s)
    (hexact : ∀ dp i, s.HasIndex dp i → Exact functions dp) {root : TreeNode}
    (hanswer : Answers F functions attributes intervals s root) :
    ∃ inputs hcs t node, From functions s inputs hcs ∧
      Delivers functions file (inputs.sample hcs) t ∧ visit file t = .ok node ∧
        root = node.trim := by
  obtain ⟨p, fileStem, data, text, bound, hp, hdata, hrun, hdecode⟩ := hanswer
  obtain ⟨data', inputs, hcs, hdata', hread, hfrom, hmetadata, hintervals⟩ :=
    readInputs_from hsetup hs fileStem
  obtain rfl := Except.ok.inj (hdata.symm.trans hdata')
  obtain ⟨inputs', hread', hrun⟩ := bind_ok.mp hrun
  obtain rfl := Except.ok.inj (hread.symm.trans hread')
  obtain ⟨_, -, hrun⟩ := bind_ok.mp hrun
  obtain ⟨hcs', hconstraints, hrun⟩ := bind_ok.mp hrun
  obtain rfl := Except.ok.inj (hfrom.constraints.symm.trans hconstraints)
  obtain ⟨finished, hmain, hrun⟩ := bind_ok.mp hrun
  obtain ⟨text', htext, hret⟩ := bind_ok.mp hrun
  obtain ⟨rfl, -⟩ := Prod.mk.inj (Except.ok.inj hret)
  have hdelivers : Delivers functions file (inputs.sample hcs) finished.tree := by
    rcases main_cases hmain with hprephase | ⟨n, threshold, hattempt⟩
    · exact prephase_delivers hsetup hfrom hexact hintervals hp hprephase
    · exact attempt_delivers hfrom hs hsetup.names hsetup.file_ok hexact hattempt
  have hint : PlainNames inputs.metadata.intNames := by
    rw [hmetadata]
    exact fun name hname c hc => ((intNames_ok hsetup.scanned hsetup.file_ok name hname).2 c
      hc).plain
  have hcategorical : PlainNames [attributeNameOfExistentialFunctions] := by
    intro name hname
    rw [List.mem_singleton.mp hname]
    simp only [Json.IsPlain]
    decide
  rw [hsetup.categoricalNames] at htext
  obtain ⟨node, hnode, hdecode'⟩ := decodeText_jsonText hcategorical hint hdelivers.thresholds htext
  refine ⟨inputs, hcs, finished.tree, node, hfrom, hdelivers, ?_, ?_⟩
  · rw [hmetadata] at hnode
    exact hnode
  · exact Option.some.inj (hdecode.symm.trans hdecode')

/-- The output of the tree for a data point of the sample is the truth of the new implementation. -/
theorem truth_of_output (hsetup : Setup h.existentialFunctions h.attributes attributes intervals)
    (hexact : Exact h.existentialFunctions dp) {sample : Learner.Sample} {t : Tree}
    {node : TreeNode} (hdelivers : Delivers h.existentialFunctions h.attributes sample t)
    (hvisit : visit h.attributes t = .ok node) {values' : List (String × DecisionTreeDomain)}
    (hkeys : keys values' = h.existentialFunctions.map Function.name)
    (hvalues : ∀ entry ∈ values', constructModel h.debug entry.1 node h.attributes.attribute2Expr
      (functionID h.existentialFunctions) = .ok entry.2.model)
    {label i : ℕ} {d : Datapoint} (hd : Represents h.existentialFunctions dp label i d) {b : Bool}
    (hout : t.output d = .ok b) : truth values' dp ↔ b = true := by
  obtain ⟨f, hf, hname, htyped, hoverflow⟩ := hexact
  obtain ⟨functionName, value⟩ := dp
  obtain rfl : f.name = functionName := hname
  obtain ⟨domain, hlookup⟩ : ∃ domain, values'.lookup f.name = some domain := by
    refine Option.ne_none_iff_exists'.mp fun hnone => not_mem_keys_iff.mpr hnone ?_
    rw [hkeys]
    exact List.mem_map_of_mem hf
  have hmodel : constructModel h.debug f.name node h.attributes.attribute2Expr
      (functionID h.existentialFunctions) = .ok domain.model := hvalues _ (mem_of_lookup hlookup)
  have htruth : truth values' ⟨f.name, value⟩ ↔ domain.model.evalBool value = true := by
    constructor
    · rintro ⟨domain', hlookup', htrue⟩
      rw [Option.some.inj (hlookup.symm.trans hlookup')]
      exact htrue
    · exact fun htrue => ⟨domain, hlookup, htrue⟩
  rcases hdelivers.splits with rfl | ⟨children, rfl⟩
  · -- the teacher expects a split on the functions
    obtain rfl := Except.ok.inj hvisit
    unfold constructModel at hmodel
    obtain ⟨_, -, hmodel⟩ := bind_ok.mp hmodel
    obtain ⟨_, -, hmodel⟩ := bind_ok.mp hmodel
    dsimp only at hmodel
    rw [if_pos (by decide)] at hmodel
    cases hmodel
  obtain ⟨before, after, hsplit⟩ := List.append_of_mem hf
  have hnd := hsplit ▸ hsetup.names
  obtain ⟨category, fields, hrow, hdata⟩ := hd
  have hpoint : dataPoint h.existentialFunctions ⟨f.name, value⟩ =
      .ok { categoricalData := [category], intData := fields } := by
    unfold dataPoint
    rw [hrow]
    rfl
  have hrow' : datapointRow h.existentialFunctions ⟨f.name, value⟩ = .ok (before.length,
      h.existentialFunctions.flatMap (block wrap32 ⟨f.name, value⟩)) := by
    rw [hsplit]
    exact rowWith_eq hnd rfl htyped.length.le
  obtain ⟨rfl, rfl⟩ := Prod.mk.inj (Except.ok.inj (hrow.symm.trans hrow'))
  rcases Tree.exists_child_of_output hout with hleaf | ⟨j, c, hbranch, hchild, hnull, -⟩
  · cases hleaf
  obtain rfl : before.length = j := by
    rw [hdata] at hbranch
    exact Option.some.inj hbranch
  -- the learner has computed with 32 bits, but nothing overflows
  have hagrees : TranslationAgrees h.debug h.existentialFunctions h.attributes f
      (.categorical 0 h.existentialFunctions.length children) value := by
    have hexactly := hdelivers.agrees h.debug before f after c hsplit hchild hnull
    rw [hsplit] at hexactly ⊢
    exact (hexactly.agrees_iff hnd htyped).mpr (.inl hoverflow)
  obtain ⟨node', e, hvisit', he, hvalue⟩ := hagrees
  obtain rfl := Except.ok.inj (hvisit.symm.trans hvisit')
  obtain rfl := Except.ok.inj (hmodel.symm.trans he)
  rw [hpoint] at hvalue
  have hd : Tree.output (.categorical 0 h.existentialFunctions.length children) d =
      .ok (domain.model.evalBool value) :=
    (Main.SameAttributes.output ⟨by rw [hdata], by rw [hdata]⟩ _).trans hvalue
  rw [htruth, Except.ok.inj (hd.symm.trans hout)]

/-- The new implementations satisfy the sample that the learner was given. -/
theorem answer_models (hsetup : Setup h.existentialFunctions h.attributes attributes intervals)
    (hs : SampleInv h.existentialFunctions s)
    (hexact : ∀ dp i, s.HasIndex dp i → Exact h.existentialFunctions dp) {root : TreeNode}
    (hanswer : Answers F h.existentialFunctions attributes intervals s root)
    {values values' : List (String × DecisionTreeDomain)} {funcsChanged : List String}
    (hkeys : keys values = h.existentialFunctions.map Function.name)
    (hrun : h.constructModels root values = .ok (funcsChanged, values')) :
    s.Models (truth values') := by
  obtain ⟨inputs, hcs, t, node, hfrom, hdelivers, hvisit, rfl⟩ :=
    answer_delivers hsetup hs hexact hanswer
  obtain ⟨hkeys', hvalues⟩ := constructModels_lookup hrun
  obtain ⟨ν, hout, hν⟩ := hdelivers.fits
  refine hfrom.models hs hν fun dp i hindex => ?_
  obtain ⟨hx, label, -, hrep⟩ := hfrom.of_hasIndex hs hindex
  refine truth_of_output hsetup (hexact dp i hindex) hdelivers hvisit (hkeys'.trans hkeys)
    (fun entry hentry => ?_) hrep (hout _ hx)
  rw [← constructModel_trim]
  exact hvalues entry hentry

end HiceDt.Boogie
