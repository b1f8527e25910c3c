import Mathlib.Data.Finset.Basic
import HiceDt.Chc.LearnerInterface

/-!
# The sample of the CHC teacher

Model of `get_unique_learner_datapoint` and `add_counterexample`
(`chc_verifier/include/learner_interface.h`, lines 191–309) with the vector of data
points and the Horn constraints of the learner API (`hice-dt/include/api.h`, lines
66–101). The data points of a counterexample are objects: `get_int_data` appends the
derived values to the object that is then used as key of the map.

Results:

* `getUniqueLearnerDatapoint_spec`: a data point gets the node for its arguments,
  whether its object has been extended or not.
* `addCounterexamples_spec`: what a sequence of calls keeps and adds.
* `addCounterexamples_recorded`: what a sequence of counterexamples leaves in the
  sample.
-/

namespace HiceDt.Chc

open HiceDt Loop

/-! ## Data points of the teacher -/

/-- `chc_teacher::datapoint`. -/
structure TeacherDatapoint where
  predicate : FuncDecl
  values : List Value
deriving DecidableEq, Repr

/-- The loop of `equal` (`datapoint.h`, lines 62–73). It is left with `true` only if
    both iterators come to the end at the same time. -/
def equalValues : List Value → List Value → Bool
  | [], [] => true
  | a :: as, b :: bs => if a = b then equalValues as bs else false
  | _, _ => false

/-- `equal` (`datapoint.h`, lines 53–75). -/
def TeacherDatapoint.equal (d d' : TeacherDatapoint) : Bool :=
  if d.predicate = d'.predicate then equalValues d.values d'.values else false

/-- The object after `get_int_data` has added the derived values. -/
def TeacherDatapoint.extended (d : TeacherDatapoint) : TeacherDatapoint :=
  { d with values := withDerived d.values }

/-- `horn_counterexample`; the data points are given by their objects. -/
structure HornCounterexample where
  lhs : List ℕ
  rhs : List ℕ
deriving DecidableEq, Repr

/-! ## The sample -/

/-- The objects of the teacher, the nodes of the map
    `teacher_datapoint_to_learner_datapoint` in the order in which they are created, and
    the fields `datapoint_ptrs` (pointers to nodes) and `horn_indexes` of the API. -/
structure Store where
  objects : ℕ → TeacherDatapoint
  nodes : List (TeacherDatapoint × Datapoint) := []
  datapointPtrs : List ℕ := []
  hornIndexes : List (Finset ℕ × Finset ℕ) := []

namespace Store

/-- The learner's data point in a node. -/
def point (s : Store) (p : ℕ) : Datapoint := ((s.nodes[p]?).map Prod.snd).getD {}

/-- `find`. -/
def find (s : Store) (key : TeacherDatapoint) : Option ℕ :=
  s.nodes.findIdx? fun node => node.1.equal key

/-- `emplace`: nothing happens if there is a node for the key. -/
def emplace (s : Store) (key : TeacherDatapoint) (d : Datapoint) : Store :=
  match s.find key with
  | some _ => s
  | none => { s with nodes := s.nodes ++ [(key, d)] }

/-- `index_of_datapoint_ptrs` (`api.h`, lines 71–81). -/
def indexOfDatapointPtrs (s : Store) : ℕ :=
  match s.datapointPtrs.getLast? with
  | none => 0
  | some p => (s.point p).identifier + 1

/-- `add_datapoints` (`api.h`, lines 66–69): the identifier is the position. -/
def addDatapoints (s : Store) (p : ℕ) : Except Error Store :=
  if (s.point p).identifier ≤ s.datapointPtrs.length then
    .ok { s with datapointPtrs := s.datapointPtrs.insertIdx (s.point p).identifier p }
  else .error .undefinedBehaviour

/-- `add_horn_constraints` (`api.h`, lines 83–101). -/
def addHornConstraints (s : Store) (premises : List ℕ) (conclusion : Option ℕ) : Store :=
  { s with hornIndexes := s.hornIndexes ++
      [((premises.map fun p => (s.point p).identifier).toFinset,
        (conclusion.toList.map fun p => (s.point p).identifier).toFinset)] }

/-- `set_classification` of the data point in a node. -/
def setClassification (s : Store) (p : ℕ) (b : Bool) : Store :=
  { s with nodes := s.nodes.modify p fun node =>
      (node.1, if node.2.isClassified then node.2
        else { node.2 with isClassified := true, classification := b }) }

/-- The body of the first `if` of `get_unique_learner_datapoint` (lines 195–213). -/
def insert (iface : LearnerInterface) (boolValue : Bool → ℤ) (s : Store) (obj : ℕ) :
    Except Error Store :=
  match iface.relations.idxOf? (s.objects obj).predicate with
  | none => .error .undefinedBehaviour
  | some i => do
    let identifier := s.indexOfDatapointPtrs
    let d ← learnerDatapoint iface boolValue i (s.objects obj).values
    let s := { s with objects := Function.update s.objects obj (s.objects obj).extended }
    let s := s.emplace (s.objects obj) { d with identifier := identifier }
    match s.find (s.objects obj) with
    | none => throw .undefinedBehaviour
    | some p =>
      if (s.point p).identifier = s.indexOfDatapointPtrs then s.addDatapoints p else return s

/-- The first `if` (lines 193–214). -/
def insertIfAbsent (iface : LearnerInterface) (boolValue : Bool → ℤ) (s : Store) (obj : ℕ) :
    Except Error Store :=
  match s.find (s.objects obj) with
  | none => s.insert iface boolValue obj
  | some _ => .ok s

/-- `get_unique_learner_datapoint` (lines 191–216). -/
def getUniqueLearnerDatapoint (iface : LearnerInterface) (boolValue : Bool → ℤ) (s : Store)
    (obj : ℕ) : Except Error (ℕ × Store) := do
  let s ← s.insertIfAbsent iface boolValue obj
  match s.find (s.objects obj) with
  | none => throw .undefinedBehaviour
  | some p => return (p, s)

/-- The cases for a single data point (lines 244–271). -/
def addLabel (iface : LearnerInterface) (boolValue : Bool → ℤ) (s : Store) (obj : ℕ) (b : Bool) :
    Except Error Store := do
  let (p, s) ← s.getUniqueLearnerDatapoint iface boolValue obj
  if (s.point p).isClassified then
    if (s.point p).classification ≠ b then throw (.runtimeError "Contradicting counterexample")
    else return s
  else return s.setClassification p b

/-- The loop over the left-hand side (lines 289–292). -/
def getPoints (iface : LearnerInterface) (boolValue : Bool → ℤ) : Store → List ℕ →
    Except Error (List ℕ × Store)
  | s, [] => .ok ([], s)
  | s, obj :: rest => do
    let (p, s) ← s.getUniqueLearnerDatapoint iface boolValue obj
    let (ps, s) ← getPoints iface boolValue s rest
    return (p :: ps, s)

/-- The case of a Horn counterexample (lines 274–297); the conclusion comes first. -/
def addHorn (iface : LearnerInterface) (boolValue : Bool → ℤ) (s : Store)
    (counterexample : HornCounterexample) : Except Error Store := do
  let (conclusion, s) ← getPoints iface boolValue s counterexample.rhs
  let (premises, s) ← getPoints iface boolValue s counterexample.lhs
  return s.addHornConstraints premises conclusion.head?

/-- `add_counterexample` (lines 230–309). -/
def addCounterexample (iface : LearnerInterface) (boolValue : Bool → ℤ) (s : Store)
    (counterexample : HornCounterexample) : Except Error Store :=
  match counterexample with
  | ⟨[], [obj]⟩ => s.addLabel iface boolValue obj true
  | ⟨[obj], []⟩ => s.addLabel iface boolValue obj false
  | ⟨lhs, rhs⟩ =>
    if lhs.length > 0 ∧ rhs.length ≤ 1 then s.addHorn iface boolValue ⟨lhs, rhs⟩
    else .error (.runtimeError "Malformed counterexample")

/-- A sequence of calls that do not throw. -/
def addCounterexamples (iface : LearnerInterface) (boolValue : Bool → ℤ) (s : Store)
    (counterexamples : List HornCounterexample) : Except Error Store :=
  counterexamples.foldlM (addCounterexample iface boolValue) s

end Store

/-! ## Keys -/

theorem equalValues_iff {as bs : List Value} : equalValues as bs = true ↔ as = bs := by
  induction as generalizing bs with
  | nil => cases bs <;> simp [equalValues]
  | cons a as ih =>
    cases bs with
    | nil => simp [equalValues]
    | cons b bs =>
      rw [equalValues, List.cons.injEq]
      split
      · rename_i hab
        rw [ih]
        exact ⟨fun h => ⟨hab, h⟩, fun h => h.2⟩
      · rename_i hab
        simp [hab]

theorem TeacherDatapoint.equal_iff {d d' : TeacherDatapoint} : d.equal d' = true ↔ d = d' := by
  obtain ⟨predicate, values⟩ := d
  obtain ⟨predicate', values'⟩ := d'
  rw [TeacherDatapoint.equal, TeacherDatapoint.mk.injEq]
  split
  · rename_i h
    rw [equalValues_iff]
    exact ⟨fun hv => ⟨h, hv⟩, fun hv => hv.2⟩
  · rename_i h
    simp only [Bool.false_eq_true, false_iff]
    exact fun hv => h hv.1

/-- The number of values is the arity, as in a data point that has not been extended. -/
def TeacherDatapoint.Basic (d : TeacherDatapoint) : Prop := d.values.length = d.predicate.arity

/-- The derived values are determined by the arguments. -/
theorem TeacherDatapoint.extended_inj {d d' : TeacherDatapoint} (hd : d.Basic) (hd' : d'.Basic)
    (h : d.extended = d'.extended) : d = d' := by
  obtain ⟨predicate, values⟩ := d
  obtain ⟨predicate', values'⟩ := d'
  obtain ⟨rfl, hv⟩ := TeacherDatapoint.mk.inj h
  unfold TeacherDatapoint.Basic at hd hd'
  obtain ⟨rfl, -⟩ := List.append_inj hv (hd.trans hd'.symm)
  rfl

/-- An extended data point that has as many values as the predicate has arguments has
    no derived values. -/
theorem TeacherDatapoint.extended_of_basic {d d' : TeacherDatapoint} (hd : d.Basic) (hd' : d'.Basic)
    (h : d = d'.extended) : d.extended = d := by
  have hlen : d'.values.length = d'.extended.values.length := by
    unfold TeacherDatapoint.Basic at hd hd'
    rw [hd', ← h, hd, h]
    rfl
  have hnil : (pairs d'.values).flatMap derivedValues = [] := by
    unfold TeacherDatapoint.extended withDerived at hlen
    rw [List.length_append] at hlen
    exact List.length_eq_zero_iff.mp (by omega)
  have hself : d'.extended = d' := by
    unfold TeacherDatapoint.extended withDerived
    rw [hnil, List.append_nil]
  rw [h, hself, hself]

namespace Store

variable {s s' : Store} {key : TeacherDatapoint} {p : ℕ}

/-- The keys of the map. -/
def keys (s : Store) : List TeacherDatapoint := s.nodes.map Prod.fst

theorem length_keys (s : Store) : s.keys.length = s.nodes.length := List.length_map _

theorem find_eq (s : Store) (key : TeacherDatapoint) :
    s.find key = s.keys.findIdx? fun k => k = key := by
  unfold find keys
  rw [List.findIdx?_map]
  congr 1
  funext node
  rw [Function.comp_apply, Bool.eq_iff_iff, TeacherDatapoint.equal_iff, decide_eq_true_eq]

theorem find_eq_none : s.find key = none ↔ key ∉ s.keys := by
  rw [find_eq, List.findIdx?_eq_none_iff]
  constructor
  · intro h hmem
    simpa using h key hmem
  · intro h k hk
    rw [decide_eq_false_iff_not]
    rintro rfl
    exact h hk

theorem find_eq_some (hnd : s.keys.Nodup) : s.find key = some p ↔ s.keys[p]? = some key := by
  rw [find_eq, List.findIdx?_eq_some_iff_getElem]
  constructor
  · rintro ⟨hlt, hkey, -⟩
    rw [List.getElem?_eq_getElem hlt, of_decide_eq_true hkey]
  · intro h
    obtain ⟨hlt, hkey⟩ := List.getElem?_eq_some_iff.mp h
    refine ⟨hlt, decide_eq_true hkey, fun j hj => ?_⟩
    rw [decide_eq_true_eq]
    intro hkey'
    have := (List.Nodup.getElem_inj_iff hnd).mp (hkey'.trans hkey.symm)
    omega

/-! ## The invariant -/

/-- The objects start as `args`. Every key is an extended data point, no two keys are
    equal, and the nodes are numbered in the order of their creation. -/
structure Inv (args : ℕ → TeacherDatapoint) (s : Store) : Prop where
  nodup : s.keys.Nodup
  keys : ∀ key ∈ s.keys, ∃ d : TeacherDatapoint, d.Basic ∧ key = d.extended
  identifier : ∀ p < s.nodes.length, (s.point p).identifier = p
  ptrs : s.datapointPtrs = List.range s.nodes.length
  objects : ∀ o, s.objects o = args o ∨
    s.objects o = (args o).extended ∧ (args o).extended ∈ s.keys
  horn : ∀ pair ∈ s.hornIndexes, ∀ i ∈ pair.1 ∪ pair.2, i < s.nodes.length

/-- What later calls keep: the nodes, their keys and identifiers, and the labels that
    are set. -/
structure Grows (s s' : Store) : Prop where
  keys : s.keys <+: s'.keys
  label : ∀ p b, (s.point p).label = some b → (s'.point p).label = some b

theorem Grows.refl (s : Store) : Grows s s := ⟨List.prefix_rfl, fun _ _ h => h⟩

theorem Grows.trans {s'' : Store} (h : Grows s s') (h' : Grows s' s'') : Grows s s'' :=
  ⟨h.keys.trans h'.keys, fun p b hb => h'.label p b (h.label p b hb)⟩

theorem Grows.find (h : Grows s s') (hp : s.find key = some p) : s'.find key = some p := by
  rw [find_eq] at hp ⊢
  obtain ⟨L, hL⟩ := h.keys
  rw [← hL, List.findIdx?_append, hp]
  rfl

theorem indexOfDatapointPtrs_eq {n : ℕ} (hptrs : s.datapointPtrs = List.range n)
    (hid : ∀ p < n, (s.point p).identifier = p) : s.indexOfDatapointPtrs = n := by
  unfold indexOfDatapointPtrs
  rw [hptrs]
  cases n with
  | zero => rfl
  | succ n =>
    rw [List.range_succ, List.getLast?_concat]
    show (s.point n).identifier + 1 = n + 1
    rw [hid n (by omega)]

theorem point_append {L : List (TeacherDatapoint × Datapoint)} (hnodes : s'.nodes = s.nodes ++ L)
    (hp : p < s.nodes.length) : s'.point p = s.point p := by
  unfold point
  rw [hnodes, List.getElem?_append_left hp]

theorem label_of_ge (hp : s.nodes.length ≤ p) : (s.point p).label = none := by
  unfold point
  rw [List.getElem?_eq_none hp]
  rfl

/-! ## Looking up a data point -/

variable {iface : LearnerInterface} {boolValue : Bool → ℤ} {args : ℕ → TeacherDatapoint} {obj : ℕ}

/-- The object is extended; its key is in the map. -/
theorem Inv.extend (h : Inv args s) (hmem : (args obj).extended ∈ s.keys) :
    Inv args { s with objects := Function.update s.objects obj (args obj).extended } := by
  refine ⟨h.nodup, h.keys, h.identifier, h.ptrs, fun o => ?_, h.horn⟩
  by_cases ho : o = obj
  · subst ho
    exact .inr ⟨Function.update_self .., hmem⟩
  · have hsame : Function.update s.objects obj (args obj).extended o = s.objects o :=
      Function.update_of_ne ho ..
    show Function.update s.objects obj (args obj).extended o = args o ∨
      Function.update s.objects obj (args obj).extended o = (args o).extended ∧ _
    rw [hsame]
    exact h.objects o

/-- A new node. -/
theorem Inv.append (h : Inv args s) (hobj : (args obj).Basic)
    (hnew : (args obj).extended ∉ s.keys) {d : Datapoint} (hd : d.identifier = s.nodes.length)
    (hnodes : s'.nodes = s.nodes ++ [((args obj).extended, d)])
    (hptrs : s'.datapointPtrs = List.range (s.nodes.length + 1))
    (hobjects : s'.objects = Function.update s.objects obj (args obj).extended)
    (hhorn : s'.hornIndexes = s.hornIndexes) : Inv args s' := by
  have hkeys : s'.keys = s.keys ++ [(args obj).extended] := by
    unfold Store.keys
    rw [hnodes, List.map_append]
    rfl
  have hlen : s'.nodes.length = s.nodes.length + 1 := by rw [hnodes, List.length_append]; rfl
  refine ⟨?_, fun key hkey => ?_, fun p hp => ?_, by rw [hptrs, hlen], fun o => ?_,
    fun pair hpair i hi => ?_⟩
  · rw [hkeys]
    exact List.Nodup.append h.nodup (List.nodup_singleton _) (List.disjoint_singleton.mpr hnew)
  · rw [hkeys] at hkey
    rcases List.mem_append.mp hkey with hkey | hkey
    · exact h.keys key hkey
    · exact ⟨args obj, hobj, List.mem_singleton.mp hkey⟩
  · by_cases hlt : p < s.nodes.length
    · rw [point_append hnodes hlt]
      exact h.identifier p hlt
    · obtain rfl : p = s.nodes.length := by omega
      unfold point
      rw [hnodes, List.getElem?_concat_length]
      exact hd
  · rw [hobjects, hkeys]
    by_cases ho : o = obj
    · subst ho
      exact .inr ⟨Function.update_self .., List.mem_append_right _ (List.mem_singleton_self _)⟩
    · rw [Function.update_of_ne ho]
      exact (h.objects o).imp_right fun ⟨he, hmem⟩ => ⟨he, List.mem_append_left _ hmem⟩
  · rw [hhorn] at hpair
    have := h.horn pair hpair i hi
    omega

/-- What a lookup keeps, and what it adds. -/
structure Looked (args : ℕ → TeacherDatapoint) (s s' : Store) (obj p : ℕ) : Prop where
  inv : Inv args s'
  grows : Grows s s'
  hornIndexes : s'.hornIndexes = s.hornIndexes
  found : s'.find (args obj).extended = some p

/-- The state of `insert` after the emplacement of the data point `d` for the learner. -/
def emplaced (args : ℕ → TeacherDatapoint) (s : Store) (obj : ℕ) (d : Datapoint) : Store :=
  ({ s with objects := Function.update s.objects obj (args obj).extended } : Store).emplace
    (args obj).extended { d with identifier := s.nodes.length }

theorem insert_ok (h : Inv args s) (hnone : s.find (s.objects obj) = none)
    (hrun : s.insert iface boolValue obj = .ok s') :
    ∃ d p, (emplaced args s obj d).find (args obj).extended = some p ∧
      (if ((emplaced args s obj d).point p).identifier =
          (emplaced args s obj d).indexOfDatapointPtrs then (emplaced args s obj d).addDatapoints p
        else .ok (emplaced args s obj d)) = .ok s' := by
  have hobj : s.objects obj = args obj := by
    rcases h.objects obj with ho | ⟨ho, hmem⟩
    · exact ho
    · rw [find_eq_none, ho] at hnone
      exact absurd hmem hnone
  unfold insert at hrun
  split at hrun
  · simp at hrun
  obtain ⟨d, -, hrun⟩ := bind_ok.mp hrun
  rw [hobj, indexOfDatapointPtrs_eq h.ptrs h.identifier] at hrun
  simp only [Function.update_self] at hrun
  have hobjects : (emplaced args s obj d).objects obj = (args obj).extended := by
    unfold emplaced emplace
    split <;> exact Function.update_self ..
  refine ⟨d, ?_⟩
  unfold emplaced at hobjects ⊢
  rw [hobjects] at hrun
  split at hrun
  · cases hrun
  · exact ⟨_, ‹_›, hrun⟩

/-- The object is new, but there is a node for its arguments. -/
theorem insert_known (h : Inv args s) (hmem : (args obj).extended ∈ s.keys) {d : Datapoint} {p : ℕ}
    (hfind : (emplaced args s obj d).find (args obj).extended = some p)
    (hrun : (if ((emplaced args s obj d).point p).identifier =
        (emplaced args s obj d).indexOfDatapointPtrs then (emplaced args s obj d).addDatapoints p
      else .ok (emplaced args s obj d)) = .ok s') :
    s'.objects obj = (args obj).extended ∧ Looked args s s' obj p := by
  have hinv := h.extend hmem
  set s₁ : Store := { s with objects := Function.update s.objects obj (args obj).extended } with hs₁
  have hemplace : emplaced args s obj d = s₁ := by
    unfold emplaced emplace
    rw [← hs₁]
    cases hp : s₁.find (args obj).extended with
    | none => exact absurd hmem (find_eq_none.mp hp)
    | some p => rfl
  rw [hemplace] at hfind hrun
  have hlt : p < s.nodes.length := by
    have := (List.getElem?_eq_some_iff.mp ((find_eq_some hinv.nodup).mp hfind)).1
    rwa [length_keys] at this
  have hno : (s₁.point p).identifier ≠ s₁.indexOfDatapointPtrs := by
    rw [indexOfDatapointPtrs_eq hinv.ptrs hinv.identifier, hinv.identifier p hlt]
    exact hlt.ne
  rw [if_neg hno] at hrun
  obtain rfl := Except.ok.inj hrun
  exact ⟨Function.update_self .., hinv, ⟨List.prefix_rfl, fun _ _ hb => hb⟩, rfl, hfind⟩

/-- There is no node for the arguments: one is added at the end. -/
theorem insert_new (h : Inv args s) (hobj : (args obj).Basic)
    (hmem : (args obj).extended ∉ s.keys) {d : Datapoint} {p : ℕ}
    (hfind : (emplaced args s obj d).find (args obj).extended = some p)
    (hrun : (if ((emplaced args s obj d).point p).identifier =
        (emplaced args s obj d).indexOfDatapointPtrs then (emplaced args s obj d).addDatapoints p
      else .ok (emplaced args s obj d)) = .ok s') :
    s'.objects obj = (args obj).extended ∧ Looked args s s' obj p := by
  set n := s.nodes.length with hn
  set s₂ : Store := { s with
    objects := Function.update s.objects obj (args obj).extended
    nodes := s.nodes ++ [((args obj).extended, { d with identifier := n })] } with hs₂
  have hemplace : emplaced args s obj d = s₂ := by
    unfold emplaced emplace
    have hnone : ({ s with objects := Function.update s.objects obj (args obj).extended } :
      Store).find (args obj).extended = none := find_eq_none.mpr hmem
    rw [hnone]
  rw [hemplace] at hfind hrun
  have hkeys : s₂.keys = s.keys ++ [(args obj).extended] := by
    show (s.nodes ++ _).map Prod.fst = _
    rw [List.map_append]
    rfl
  obtain rfl : p = n := by
    rw [find_eq, hkeys, List.findIdx?_append, ← find_eq, find_eq_none.mpr hmem] at hfind
    simpa [length_keys, hn] using hfind.symm
  have hid : (s₂.point n).identifier = n := by
    unfold point
    rw [hs₂]
    simp only [hn, List.getElem?_concat_length]
    rfl
  have hptrs : s₂.datapointPtrs = List.range n := h.ptrs
  have hindex : s₂.indexOfDatapointPtrs = n := indexOfDatapointPtrs_eq hptrs fun q hq => by
    have hpt : s₂.point q = s.point q := point_append rfl hq
    rw [hpt]
    exact h.identifier q hq
  rw [if_pos (hid.trans hindex.symm)] at hrun
  unfold addDatapoints at hrun
  rw [hid, hptrs, List.length_range, if_pos (le_refl n)] at hrun
  obtain rfl := Except.ok.inj hrun
  have hrange : (List.range n).insertIdx n n = List.range (n + 1) := by
    rw [List.range_succ]
    have hself := List.insertIdx_length_self (l := List.range n) (x := n)
    rwa [List.length_range] at hself
  refine ⟨Function.update_self .., h.append hobj hmem rfl rfl hrange rfl rfl,
    ⟨?_, fun q b hb => ?_⟩, rfl, hfind⟩
  · show s.keys <+: (s.nodes ++ _).map Prod.fst
    rw [List.map_append]
    exact List.prefix_append ..
  · by_cases hq : q < s.nodes.length
    · rw [point_append rfl hq]
      exact hb
    · rw [label_of_ge (by omega)] at hb
      simp at hb

/-- A data point that is not in the map. -/
theorem insert_spec (h : Inv args s) (hargs : ∀ o, (args o).Basic)
    (hnone : s.find (s.objects obj) = none) (hrun : s.insert iface boolValue obj = .ok s') :
    s'.objects obj = (args obj).extended ∧ ∃ p, Looked args s s' obj p := by
  obtain ⟨d, p, hfind, hres⟩ := insert_ok h hnone hrun
  by_cases hmem : (args obj).extended ∈ s.keys
  · obtain ⟨hobj, hlooked⟩ := insert_known h hmem hfind hres
    exact ⟨hobj, p, hlooked⟩
  · obtain ⟨hobj, hlooked⟩ := insert_new h (hargs obj) hmem hfind hres
    exact ⟨hobj, p, hlooked⟩

/-- A data point gets the node for its arguments, whether its object has been extended
    or not. -/
theorem getUniqueLearnerDatapoint_spec (h : Inv args s) (hargs : ∀ o, (args o).Basic)
    (hrun : s.getUniqueLearnerDatapoint iface boolValue obj = .ok (p, s')) :
    Looked args s s' obj p := by
  unfold getUniqueLearnerDatapoint at hrun
  obtain ⟨s₁, hs₁, hrun⟩ := bind_ok.mp hrun
  have hfound : s₁.find (s₁.objects obj) = some p ∧ s₁ = s' := by
    cases hf : s₁.find (s₁.objects obj) with
    | none =>
      rw [hf] at hrun
      simp [throw, throwThe, MonadExceptOf.throw] at hrun
    | some q =>
      rw [hf] at hrun
      obtain ⟨rfl, rfl⟩ := Prod.mk.inj (Except.ok.inj hrun)
      exact ⟨rfl, rfl⟩
  obtain ⟨hp, rfl⟩ := hfound
  unfold insertIfAbsent at hs₁
  cases hf : s.find (s.objects obj) with
  | none =>
    rw [hf] at hs₁
    obtain ⟨hobj, q, hq⟩ := insert_spec h hargs hf hs₁
    rw [hobj, hq.found] at hp
    obtain rfl := Option.some.inj hp
    exact hq
  | some q =>
    rw [hf] at hs₁
    obtain rfl := Except.ok.inj hs₁
    refine ⟨h, .refl s, rfl, ?_⟩
    rcases h.objects obj with ho | ⟨ho, -⟩
    · obtain ⟨d, hd, hkey⟩ := h.keys (s.objects obj) (by
        by_contra hno
        rw [find_eq_none.mpr hno] at hf
        simp at hf)
      rw [ho] at hkey hp
      rw [TeacherDatapoint.extended_of_basic (hargs obj) hd hkey]
      exact hp
    · rw [ho] at hp
      exact hp

/-! ## Counterexamples -/

/-- The node for the arguments with which the object was created. -/
def Represents (args : ℕ → TeacherDatapoint) (s : Store) (obj p : ℕ) : Prop :=
  s.find (args obj).extended = some p

/-- The sets of identifiers for a Horn counterexample. -/
def IndexPair (args : ℕ → TeacherDatapoint) (s : Store) (ce : HornCounterexample)
    (pair : Finset ℕ × Finset ℕ) : Prop :=
  ∃ ps cs, List.Forall₂ (Represents args s) ce.lhs ps ∧ List.Forall₂ (Represents args s) ce.rhs cs ∧
    pair = ((ps.map fun p => (s.point p).identifier).toFinset,
      (cs.map fun p => (s.point p).identifier).toFinset)

/-- A counterexample with one data point is a label. -/
def Labelled (args : ℕ → TeacherDatapoint) (s : Store) : HornCounterexample → Prop
  | ⟨[], [obj]⟩ => ∃ p, Represents args s obj p ∧ (s.point p).label = some true
  | ⟨[obj], []⟩ => ∃ p, Represents args s obj p ∧ (s.point p).label = some false
  | _ => True

/-- The other counterexamples are Horn constraints. -/
def isHorn : HornCounterexample → Bool
  | ⟨[], [_]⟩ => false
  | ⟨[_], []⟩ => false
  | _ => true

theorem Represents.lt (h : Inv args s) (hp : Represents args s obj p) : p < s.nodes.length := by
  have := (List.getElem?_eq_some_iff.mp ((find_eq_some h.nodup).mp hp)).1
  rwa [length_keys] at this

theorem IndexPair.grows {ce : HornCounterexample} {pair : Finset ℕ × Finset ℕ} (h : Inv args s)
    (h' : Inv args s') (hg : Grows s s') (hp : IndexPair args s ce pair) :
    IndexPair args s' ce pair := by
  obtain ⟨ps, cs, hps, hcs, rfl⟩ := hp
  have hid : ∀ {objs ps : List ℕ}, List.Forall₂ (Represents args s) objs ps →
      (ps.map fun p => (s.point p).identifier) = ps.map fun p => (s'.point p).identifier := by
    intro objs ps hps
    induction hps with
    | nil => rfl
    | cons hrep _ ih =>
      have hrep' : Represents args s' _ _ := hg.find hrep
      rw [List.map_cons, List.map_cons, ih, h.identifier _ (Represents.lt h hrep),
        h'.identifier _ (Represents.lt h' hrep')]
  refine ⟨ps, cs, hps.imp fun _ _ hrep => hg.find hrep, hcs.imp fun _ _ hrep => hg.find hrep, ?_⟩
  rw [hid hps, hid hcs]

theorem Labelled.grows {ce : HornCounterexample} (hg : Grows s s') (hl : Labelled args s ce) :
    Labelled args s' ce := by
  match ce with
  | ⟨[], [obj]⟩ =>
    obtain ⟨p, hrep, hp⟩ := hl
    exact ⟨p, hg.find hrep, hg.label p _ hp⟩
  | ⟨[obj], []⟩ =>
    obtain ⟨p, hrep, hp⟩ := hl
    exact ⟨p, hg.find hrep, hg.label p _ hp⟩
  | ⟨[], []⟩ => trivial
  | ⟨[], _ :: _ :: _⟩ => trivial
  | ⟨[_], _ :: _⟩ => trivial
  | ⟨_ :: _ :: _, _⟩ => trivial

theorem setClassification_keys (s : Store) (p : ℕ) (b : Bool) :
    (s.setClassification p b).keys = s.keys := by
  unfold keys setClassification
  refine List.ext_getElem? fun i => ?_
  rw [List.getElem?_map, List.getElem?_map, List.getElem?_modify]
  cases s.nodes[i]? with
  | none => rfl
  | some node =>
    by_cases hi : p = i
    · simp [hi]
    · simp [hi]

/-- The label of an unclassified data point is set. -/
theorem setClassification_point (s : Store) {p : ℕ} (b : Bool) (hp : p < s.nodes.length)
    (hno : (s.point p).isClassified = false) (q : ℕ) :
    (s.setClassification p b).point q =
      if q = p then { s.point p with isClassified := true, classification := b } else s.point
        q := by
  unfold point at hno ⊢
  unfold setClassification
  rw [List.getElem?_eq_getElem hp] at hno ⊢
  simp only [List.getElem?_modify]
  by_cases hq : q = p
  · subst hq
    have hno' : s.nodes[q].2.isClassified = false := hno
    rw [List.getElem?_eq_getElem hp]
    simp [hno']
  · have hpq : p ≠ q := fun e => hq e.symm
    rw [if_neg hq]
    simp [hpq]

/-- What a counterexample keeps and what it adds. -/
structure Added (args : ℕ → TeacherDatapoint) (s s' : Store) (ce : HornCounterexample) : Prop where
  inv : Inv args s'
  grows : Grows s s'
  labelled : Labelled args s' ce
  hornIndexes : ∃ L, s'.hornIndexes = s.hornIndexes ++ L ∧
    List.Forall₂ (IndexPair args s') ([ce].filter isHorn) L

theorem addLabel_spec (h : Inv args s) (hargs : ∀ o, (args o).Basic) {b : Bool}
    (hrun : s.addLabel iface boolValue obj b = .ok s') :
    Inv args s' ∧ Grows s s' ∧ s'.hornIndexes = s.hornIndexes ∧
      ∃ p, Represents args s' obj p ∧ (s'.point p).label = some b := by
  obtain ⟨⟨p, s₁⟩, hget, hrun⟩ := bind_ok.mp hrun
  have hl := getUniqueLearnerDatapoint_spec h hargs hget
  have hlt := Represents.lt hl.inv hl.found
  dsimp only at hrun
  cases hc : (s₁.point p).isClassified with
  | true =>
    rw [hc, if_pos rfl] at hrun
    split at hrun
    · simp [throw, throwThe, MonadExceptOf.throw] at hrun
    · rename_i hb
      obtain rfl := Except.ok.inj hrun
      refine ⟨hl.inv, hl.grows, hl.hornIndexes, p, hl.found, ?_⟩
      unfold Datapoint.label
      rw [if_pos hc, not_not.mp hb]
  | false =>
    rw [hc] at hrun
    obtain rfl : s₁.setClassification p b = s' := Except.ok.inj hrun
    have hkeys := setClassification_keys s₁ p b
    have hpoint := setClassification_point s₁ b hlt hc
    have hlen : (s₁.setClassification p b).nodes.length = s₁.nodes.length := by
      rw [← length_keys, hkeys, length_keys]
    have hinv : Inv args (s₁.setClassification p b) := by
      refine ⟨by rw [hkeys]; exact hl.inv.nodup, by rw [hkeys]; exact hl.inv.keys, fun q hq => ?_,
        by rw [hlen]; exact hl.inv.ptrs, by rw [hkeys]; exact hl.inv.objects,
        by rw [hlen]; exact hl.inv.horn⟩
      rw [hlen] at hq
      rw [hpoint]
      split
      · rename_i hqp
        subst hqp
        exact hl.inv.identifier q hq
      · exact hl.inv.identifier q hq
    have hgrows : Grows s₁ (s₁.setClassification p b) := by
      refine ⟨by rw [hkeys], fun q b' hb' => ?_⟩
      rw [hpoint]
      split
      · rename_i hqp
        subst hqp
        unfold Datapoint.label at hb'
        rw [hc] at hb'
        simp at hb'
      · exact hb'
    refine ⟨hinv, hl.grows.trans hgrows, hl.hornIndexes, p, hgrows.find hl.found, ?_⟩
    rw [hpoint, if_pos rfl]
    rfl

theorem getPoints_spec (hargs : ∀ o, (args o).Basic) {objs ps : List ℕ} (h : Inv args s)
    (hrun : getPoints iface boolValue s objs = .ok (ps, s')) :
    Inv args s' ∧ Grows s s' ∧ s'.hornIndexes = s.hornIndexes ∧
      List.Forall₂ (Represents args s') objs ps := by
  induction objs generalizing s ps with
  | nil =>
    obtain ⟨rfl, rfl⟩ := Prod.mk.inj (Except.ok.inj hrun)
    exact ⟨h, .refl s, rfl, .nil⟩
  | cons obj rest ih =>
    obtain ⟨⟨p, s₁⟩, hget, hrun⟩ := bind_ok.mp hrun
    obtain ⟨⟨ps', s₂⟩, hrest, hrun⟩ := bind_ok.mp hrun
    obtain ⟨rfl, rfl⟩ := Prod.mk.inj (Except.ok.inj hrun)
    have hl := getUniqueLearnerDatapoint_spec h hargs hget
    obtain ⟨hinv, hgrows, hhorn, hreps⟩ := ih hl.inv hrest
    exact ⟨hinv, hl.grows.trans hgrows, hhorn.trans hl.hornIndexes,
      .cons (hgrows.find hl.found) hreps⟩

theorem identifier_lt (h : Inv args s) {objs ps : List ℕ}
    (hps : List.Forall₂ (Represents args s) objs ps) :
    ∀ i ∈ ps.map fun p => (s.point p).identifier, i < s.nodes.length := by
  induction hps with
  | nil => simp
  | cons hrep _ ih =>
    intro i hi
    rw [List.map_cons, h.identifier _ (Represents.lt h hrep)] at hi
    rcases List.mem_cons.mp hi with rfl | hi
    · exact Represents.lt h hrep
    · exact ih i hi

theorem addHorn_spec (h : Inv args s) (hargs : ∀ o, (args o).Basic) {ce : HornCounterexample}
    (hlen : ce.rhs.length ≤ 1) (hrun : s.addHorn iface boolValue ce = .ok s') :
    Inv args s' ∧ Grows s s' ∧ ∃ pair, s'.hornIndexes = s.hornIndexes ++ [pair] ∧
      IndexPair args s' ce pair := by
  obtain ⟨⟨cs, s₁⟩, hconc, hrun⟩ := bind_ok.mp hrun
  obtain ⟨⟨ps, s₂⟩, hprem, hrun⟩ := bind_ok.mp hrun
  obtain rfl : s₂.addHornConstraints ps cs.head? = s' := Except.ok.inj hrun
  obtain ⟨hinv₁, hgrows₁, hhorn₁, hcs⟩ := getPoints_spec hargs h hconc
  obtain ⟨hinv₂, hgrows₂, hhorn₂, hps⟩ := getPoints_spec hargs hinv₁ hprem
  have hcs₂ : List.Forall₂ (Represents args s₂) ce.rhs cs := hcs.imp fun _ _ hrep =>
    hgrows₂.find hrep
  have hhead : cs.head?.toList = cs := by
    have : cs.length ≤ 1 := by
      rw [← hcs.length_eq]
      exact hlen
    match cs with
    | [] => rfl
    | [c] => rfl
    | _ :: _ :: _ => simp at this
  refine ⟨⟨hinv₂.nodup, hinv₂.keys, hinv₂.identifier, hinv₂.ptrs, hinv₂.objects, ?_⟩,
    (hgrows₁.trans hgrows₂).trans ⟨List.prefix_rfl, fun _ _ hb => hb⟩,
    ((ps.map fun p => (s₂.point p).identifier).toFinset,
      (cs.head?.toList.map fun p => (s₂.point p).identifier).toFinset), ?_, ps, cs, hps, hcs₂, ?_⟩
  · intro pair hpair i hi
    rcases List.mem_append.mp hpair with hpair | hpair
    · exact hinv₂.horn pair hpair i hi
    · rw [List.mem_singleton.mp hpair] at hi
      rcases Finset.mem_union.mp hi with hi | hi
      · exact identifier_lt hinv₂ hps i (List.mem_toFinset.mp hi)
      · rw [hhead] at hi
        exact identifier_lt hinv₂ hcs₂ i (List.mem_toFinset.mp hi)
  · show s₂.hornIndexes ++ _ = s.hornIndexes ++ _
    rw [hhorn₂, hhorn₁]
  · rw [hhead]
    rfl

/-- One call. -/
theorem addCounterexample_spec (h : Inv args s) (hargs : ∀ o, (args o).Basic)
    {ce : HornCounterexample} (hrun : s.addCounterexample iface boolValue ce = .ok s') :
    Added args s s' ce := by
  unfold addCounterexample at hrun
  split at hrun
  · obtain ⟨hinv, hgrows, hhorn, hl⟩ := addLabel_spec h hargs hrun
    exact ⟨hinv, hgrows, hl, [], by rw [hhorn, List.append_nil], .nil⟩
  · obtain ⟨hinv, hgrows, hhorn, hl⟩ := addLabel_spec h hargs hrun
    exact ⟨hinv, hgrows, hl, [], by rw [hhorn, List.append_nil], .nil⟩
  · rename_i lhs rhs hpos hneg
    split at hrun
    swap
    · simp at hrun
    rename_i hsize
    obtain ⟨hinv, hgrows, pair, hhorn, hpair⟩ := addHorn_spec h hargs hsize.2 hrun
    have hkind : isHorn ⟨lhs, rhs⟩ = true ∧ Labelled args s' ⟨lhs, rhs⟩ := by
      match lhs, rhs with
      | [], [obj] => exact (hpos obj rfl rfl).elim
      | [obj], [] => exact (hneg obj rfl rfl).elim
      | [], [] => exact ⟨rfl, trivial⟩
      | [], _ :: _ :: _ => exact ⟨rfl, trivial⟩
      | [_], _ :: _ => exact ⟨rfl, trivial⟩
      | _ :: _ :: _, _ => exact ⟨rfl, trivial⟩
    refine ⟨hinv, hgrows, hkind.2, [pair], hhorn, ?_⟩
    rw [List.filter_singleton, hkind.1]
    exact .cons hpair .nil

/-- All calls. -/
theorem addCounterexamples_spec (hargs : ∀ o, (args o).Basic) {ces : List HornCounterexample}
    (h : Inv args s) (hrun : s.addCounterexamples iface boolValue ces = .ok s') :
    Inv args s' ∧ Grows s s' ∧ (∀ ce ∈ ces, Labelled args s' ce) ∧
      ∃ L, s'.hornIndexes = s.hornIndexes ++ L ∧
        List.Forall₂ (IndexPair args s') (ces.filter isHorn) L := by
  induction ces generalizing s with
  | nil =>
    obtain rfl := Except.ok.inj hrun
    exact ⟨h, .refl s, by simp, [], by simp, .nil⟩
  | cons ce ces ih =>
    obtain ⟨s₁, hfirst, hrest⟩ := bind_ok.mp hrun
    have ha := addCounterexample_spec h hargs hfirst
    obtain ⟨hinv, hgrows, hlabelled, L', hL', hforall'⟩ := ih ha.inv hrest
    obtain ⟨L, hL, hforall⟩ := ha.hornIndexes
    refine ⟨hinv, ha.grows.trans hgrows, fun ce' hce' => ?_, L ++ L', ?_, ?_⟩
    · rcases List.mem_cons.mp hce' with rfl | hce'
      · exact ha.labelled.grows hgrows
      · exact hlabelled ce' hce'
    · rw [hL', hL, List.append_assoc]
    · rw [show ce :: ces = [ce] ++ ces from rfl, List.filter_append]
      exact List.rel_append (hforall.imp fun _ _ hpair => hpair.grows ha.inv hinv hgrows) hforall'

/-! ## The sample after any number of counterexamples -/

/-- The sample before the first counterexample. -/
def initial (args : ℕ → TeacherDatapoint) : Store := { objects := args }

theorem Inv.initial (args : ℕ → TeacherDatapoint) : Inv args (initial args) :=
  ⟨List.nodup_nil, by simp [Store.initial, Store.keys], by simp [Store.initial], rfl,
    fun _ => .inl rfl, by simp [Store.initial]⟩

/-- What the sample holds after the counterexamples: the position of a data point is
    its identifier, the data points of the counterexamples are represented, two of them
    by the same one iff they have the same predicate and the same arguments, the Horn
    constraints refer to data points, and every counterexample is a label or its pair of
    sets of indices. -/
structure Recorded (args : ℕ → TeacherDatapoint) (ces : List HornCounterexample) (s : Store) :
    Prop where
  identifier : ∀ i p, s.datapointPtrs[i]? = some p → (s.point p).identifier = i
  represented : ∀ ce ∈ ces, ∀ obj ∈ ce.lhs ++ ce.rhs,
    ∃ p ∈ s.datapointPtrs, Represents args s obj p
  unique : ∀ obj obj' p p', Represents args s obj p → Represents args s obj' p' →
    (p = p' ↔ args obj = args obj')
  lt_size : ∀ pair ∈ s.hornIndexes, ∀ i ∈ pair.1 ∪ pair.2, i < s.datapointPtrs.length
  labelled : ∀ ce ∈ ces, Labelled args s ce
  hornIndexes : List.Forall₂ (IndexPair args s) (ces.filter isHorn) s.hornIndexes

theorem Represents.mem_ptrs (h : Inv args s) (hp : Represents args s obj p) :
    p ∈ s.datapointPtrs := by
  rw [h.ptrs, List.mem_range]
  exact Represents.lt h hp

/-- The data points of a recorded counterexample are represented. -/
theorem represented_of_recorded {ce : HornCounterexample} (hl : Labelled args s ce)
    (hh : isHorn ce = true → ∃ pair, IndexPair args s ce pair) :
    ∀ obj ∈ ce.lhs ++ ce.rhs, ∃ p, Represents args s obj p := by
  have hmem : ∀ {objs ps : List ℕ}, List.Forall₂ (Represents args s) objs ps →
      ∀ obj ∈ objs, ∃ p, Represents args s obj p := by
    intro objs ps hps
    induction hps with
    | nil => simp
    | cons hrep _ ih =>
      intro obj hobj
      rcases List.mem_cons.mp hobj with rfl | hobj
      · exact ⟨_, hrep⟩
      · exact ih obj hobj
  intro obj hobj
  cases hkind : isHorn ce with
  | true =>
    obtain ⟨pair, ps, cs, hps, hcs, -⟩ := hh hkind
    rcases List.mem_append.mp hobj with hobj | hobj
    · exact hmem hps obj hobj
    · exact hmem hcs obj hobj
  | false =>
    match ce with
    | ⟨[], [_]⟩ =>
      obtain ⟨p, hrep, -⟩ := hl
      obtain rfl := List.mem_singleton.mp hobj
      exact ⟨p, hrep⟩
    | ⟨[_], []⟩ =>
      obtain ⟨p, hrep, -⟩ := hl
      obtain rfl := List.mem_singleton.mp hobj
      exact ⟨p, hrep⟩
    | ⟨[], []⟩ => simp [isHorn] at hkind
    | ⟨[], _ :: _ :: _⟩ => simp [isHorn] at hkind
    | ⟨[_], _ :: _⟩ => simp [isHorn] at hkind
    | ⟨_ :: _ :: _, _⟩ => simp [isHorn] at hkind

/-- Every sequence of counterexamples that do not throw is recorded, and a label that
    is set is never changed. -/
theorem addCounterexamples_recorded (iface : LearnerInterface) (boolValue : Bool → ℤ)
    (args : ℕ → TeacherDatapoint) (hargs : ∀ obj,
      (args obj).values.length = (args obj).predicate.arity)
    (ces : List HornCounterexample) (s : Store)
    (hrun : (initial args).addCounterexamples iface boolValue ces = .ok s) :
    Recorded args ces s ∧
      ∀ ces₁ ces₂ s₁, ces = ces₁ ++ ces₂ →
        (initial args).addCounterexamples iface boolValue ces₁ = .ok s₁ →
        ∀ p b, (s₁.point p).label = some b → (s.point p).label = some b := by
  obtain ⟨hinv, -, hlabelled, L, hL, hforall⟩ := addCounterexamples_spec hargs (.initial args) hrun
  obtain rfl : s.hornIndexes = L := hL
  refine ⟨⟨fun i p hi => ?_, fun ce hce obj hobj => ?_, fun obj obj' p p' hp hp' => ?_,
    fun pair hpair i hi => ?_, hlabelled, hforall⟩, fun ces₁ ces₂ s₁ hces hrun₁ p b hb => ?_⟩
  · rw [hinv.ptrs] at hi
    obtain ⟨hlt, rfl⟩ := List.getElem?_eq_some_iff.mp hi
    rw [List.getElem_range]
    exact hinv.identifier i (by rwa [List.length_range] at hlt)
  · obtain ⟨p, hp⟩ := represented_of_recorded (hlabelled ce hce) (fun hkind => by
      have hmem : ce ∈ ces.filter isHorn := List.mem_filter.mpr ⟨hce, hkind⟩
      obtain ⟨i, hi, rfl⟩ := List.getElem_of_mem hmem
      have hi' : i < s.hornIndexes.length := hforall.length_eq ▸ hi
      exact ⟨_, hforall.get hi hi'⟩) obj hobj
    exact ⟨p, hp.mem_ptrs hinv, hp⟩
  · unfold Represents at hp hp'
    constructor
    · rintro rfl
      rw [find_eq_some hinv.nodup] at hp hp'
      rw [hp] at hp'
      exact TeacherDatapoint.extended_inj (hargs obj) (hargs obj') (Option.some.inj hp')
    · intro hsame
      rw [hsame, hp'] at hp
      exact (Option.some.inj hp).symm
  · rw [hinv.ptrs, List.length_range]
    exact hinv.horn pair hpair i hi
  · rw [hces, addCounterexamples, List.foldlM_append] at hrun
    obtain ⟨s₁', hrun₁', hrun₂⟩ := bind_ok.mp hrun
    rw [addCounterexamples, hrun₁'] at hrun₁
    obtain rfl := Except.ok.inj hrun₁
    obtain ⟨hinv₁, -⟩ := addCounterexamples_spec hargs (.initial args) hrun₁'
    obtain ⟨-, hgrows, -⟩ := addCounterexamples_spec hargs hinv₁ hrun₂
    exact hgrows.label p b hb

/-! ## Two objects with the same arguments -/

def reach : FuncDecl := ⟨"reach", [.int, .int]⟩

/-- Objects 0 and 1 have the same arguments. -/
def twins : ℕ → TeacherDatapoint
  | 0 => ⟨reach, [.int 1, .int 2]⟩
  | 1 => ⟨reach, [.int 1, .int 2]⟩
  | _ => ⟨reach, [.int 2, .int 1]⟩

/-- `expr.bool_value ()` as an integer. -/
def boolToInt (b : Bool) : ℤ := if b then 1 else -1

theorem learnerDatapoint_reach (a b : ℤ) (ha : -100 ≤ a ∧ a ≤ 100) (hb : -100 ≤ b ∧ b ≤ 100) :
    learnerDatapoint ⟨[reach]⟩ boolToInt 0 [.int a, .int b] =
      .ok { intData := [a, b, a + b, a - b], categoricalData := [0] } := by
  have hfit : ∀ n : ℤ, -200 ≤ n → n ≤ 200 → intValue boolToInt (.int n) = .ok n := by
    intro n h1 h2
    have hn : -2 ^ 31 ≤ n ∧ n < 2 ^ 31 := by omega
    simp only [intValue, decide_eq_true hn, assert_true]
    rfl
  have hblock : [Value.int a, .int b, .int (a + b), .int (a - b)].mapM (intValue boolToInt) =
      .ok [a, b, a + b, a - b] := by
    simp only [List.mapM_cons, List.mapM_nil, hfit a (by omega) (by omega),
      hfit b (by omega) (by omega), hfit (a + b) (by omega) (by omega),
      hfit (a - b) (by omega) (by omega), bind, Except.bind]
    rfl
  have hloop : intDataLoop boolToInt 0 4 [.int a, .int b, .int (a + b), .int (a - b)] 0 =
      .ok [a, b, a + b, a - b] := by
    rw [intDataLoop, if_pos (by decide), if_neg (by simp), hblock]
    simp only [bind, Except.bind]
    rw [intDataLoop, if_neg (by simp)]
    rfl
  have hdata : getIntData boolToInt ((⟨[reach]⟩ : LearnerInterface).baseValue 0)
      (⟨[reach]⟩ : LearnerInterface).integerIdentifier [.int a, .int b] =
      .ok [a, b, a + b, a - b] := hloop
  rw [learnerDatapoint, hdata]
  rfl

/-- The sample after a positive counterexample with object 0 and a Horn counterexample
    with objects 1 and 2. -/
def twinsSample : Store where
  objects := Function.update (Function.update (Function.update twins 0 (twins 0).extended) 2
    (twins 2).extended) 1 (twins 1).extended
  nodes := [((twins 0).extended, { intData := [1, 2, 3, -1], categoricalData := [0]
                                   isClassified := true, classification := true }),
    ((twins 2).extended, { intData := [2, 1, 3, 1], categoricalData := [0], identifier := 1 })]
  datapointPtrs := [0, 1]
  hornIndexes := [({0}, {1})]

theorem addCounterexamples_twins : (initial twins).addCounterexamples ⟨[reach]⟩ boolToInt
    [⟨[], [0]⟩, ⟨[1], [2]⟩] = .ok twinsSample := by
  have h12 := learnerDatapoint_reach 1 2 (by decide) (by decide)
  have h21 := learnerDatapoint_reach 2 1 (by decide) (by decide)
  have hr : List.idxOf? reach [reach] = some 0 := by simp [List.idxOf?]
  simp [addCounterexamples, addCounterexample, addHorn, getPoints, addHornConstraints, addLabel,
    getUniqueLearnerDatapoint, insertIfAbsent, insert, initial, find, emplace, twins, hr, h12, h21,
    bind, Except.bind, indexOfDatapointPtrs, addDatapoints, point, setClassification,
    TeacherDatapoint.extended, TeacherDatapoint.equal, equalValues, withDerived, pairs,
    derivedValues, pure, Except.pure, twinsSample, List.findIdx?_cons]

/-- The two objects are represented by the same data point, the third one by another
    one. -/
theorem addCounterexamples_recorded_twins :
    Recorded twins [⟨[], [0]⟩, ⟨[1], [2]⟩] twinsSample ∧
      ∃ p q, Represents twins twinsSample 0 p ∧ Represents twins twinsSample 1 p ∧
        Represents twins twinsSample 2 q ∧ p ≠ q := by
  have hargs : ∀ obj, (twins obj).values.length = (twins obj).predicate.arity := by
    intro obj
    match obj with
    | 0 => rfl
    | 1 => rfl
    | _ + 2 => rfl
  obtain ⟨hrec, -⟩ := addCounterexamples_recorded ⟨[reach]⟩ boolToInt twins hargs _ _
    addCounterexamples_twins
  obtain ⟨p, -, hp⟩ := hrec.represented ⟨[], [0]⟩ (by simp) 0 (by simp)
  obtain ⟨p', -, hp'⟩ := hrec.represented ⟨[1], [2]⟩ (by simp) 1 (by simp)
  obtain ⟨q, -, hq⟩ := hrec.represented ⟨[1], [2]⟩ (by simp) 2 (by simp)
  obtain rfl := (hrec.unique 0 1 p p' hp hp').mpr rfl
  refine ⟨hrec, p, q, hp, hp', hq, fun hpq => ?_⟩
  have := (hrec.unique 0 2 p q hp hq).mp hpq
  simp [twins] at this

end Store

end HiceDt.Chc
