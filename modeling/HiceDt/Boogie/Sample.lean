import HiceDt.Boogie.Attributes

/-!
# The sample of the Boogie teacher

Model of the class `dataPoint` and of `RecordCexForC5`, `GenerateDataFile` and
`GenerateHornFile` (`Boogie/Source/Houdini/MLHoudini.cs`, lines 139–238, 1330–1588 and
1673–1757). A `Dictionary` enumerates its entries in the order of insertion, and cannot
hold more than `maxPrimeArrayLength` of them.

Results:

* `SampleInv`: the points are numbered in the order of insertion.
* `recordAll_inv`: the invariant holds after any sequence of counterexamples.
-/

namespace HiceDt.Boogie

open Loop Text Dictionary Machine

/-! ## Data points from models -/

/-- `Model.Element`. -/
inductive Element where
  | boolean (value : Bool)
  | dataValue (constructorName : String) (args : List Element)
  | integer (numeral : ℤ)
  | other
deriving Repr

/-- `Kind == Model.ElementKind.Integer`. -/
def Element.isInteger : Element → Bool
  | .integer _ => true
  | _ => false

/-- `AsInt`; `int.Parse` throws if the number does not fit. -/
def Element.asInt : Element → Except Error ℤ
  | .integer n =>
    if -2 ^ 31 ≤ n ∧ n < 2 ^ 31 then .ok n else .error (.runtimeError "OverflowException")
  | _ => .error (.runtimeError "NotImplementedException")

/-- The value of a data value with a sign (lines 163–182). -/
def signedValue (constructorName : String) (arg : Element) : Except Error ℤ := do
  assert arg.isInteger
  if constructorName = "-" then do
    let n ← arg.asInt
    return wrap32 (-1 * n)
  else if constructorName = "+" then arg.asInt
  else
    .error (.internalError "Unexpected constructor name in the data value returned by the model\n")

/-- The value of an element (lines 151–187). -/
def elementValue : Element → Except Error ℤ
  | .boolean b => .ok (if b then 1 else 0)
  | .dataValue constructorName [arg] => signedValue constructorName arg
  | .dataValue _ _ => .error .assertionFailure
  | e => do
    assert e.isInteger
    e.asInt

/-- The constructor of `dataPoint`. -/
def DataPoint.create (funcName : String) (lm : List Element) : Except Error DataPoint := do
  let value ← lm.mapM elementValue
  return ⟨funcName, value⟩

/-! ## `RecordCexForC5` -/

/-- A counterexample: `Item1` and `Item2`. -/
structure Cex where
  lhs : List (String × List Element)
  rhs : List (String × List Element)
deriving Repr

/-- The fields that hold the sample. -/
structure Sample where
  c5samplePointToClassAttr : List (DataPoint × ℕ) := []
  c5samplePointToIndex : List (DataPoint × ℕ) := []
  c5DataPointsIndex : ℕ := 0
  hornClauses : List (List ℕ × Option ℕ) := []
deriving Repr

/-- The largest size of a `Dictionary`. -/
def maxPrimeArrayLength : ℕ := 0x7FEFFFFD

namespace Sample

/-- Adds a new data point with its label. -/
def addDataPoint (s : Sample) (dp : DataPoint) (label : ℕ) : Except Error Sample :=
  if s.c5samplePointToIndex.length < maxPrimeArrayLength then
    .ok { s with
      c5samplePointToIndex := set s.c5samplePointToIndex dp s.c5DataPointsIndex
      c5DataPointsIndex := s.c5DataPointsIndex + 1
      c5samplePointToClassAttr := set s.c5samplePointToClassAttr dp label }
  else .error (.runtimeError "OutOfMemoryException")

/-- A positive or negative counterexample (lines 1359–1407 and 1413–1468); the data point
    must not have the label `forbidden`. -/
def recordLabel (s : Sample) (dp : DataPoint) (label forbidden : ℕ) : Except Error Sample :=
  if (s.c5samplePointToIndex.lookup dp).isSome then
    match s.c5samplePointToClassAttr.lookup dp with
    | none => .error (.runtimeError "KeyNotFoundException")
    | some old => do
      assert (old ≠ forbidden)
      return { s with c5samplePointToClassAttr := set s.c5samplePointToClassAttr dp label }
  else s.addDataPoint dp label

/-- The index of a data point of a Horn counterexample (lines 1495–1515 and
    1529–1549). -/
def recordPoint (s : Sample) (tup : String × List Element) : Except Error (ℕ × Sample) := do
  let dp ← DataPoint.create tup.1 tup.2
  match s.c5samplePointToIndex.lookup dp with
  | some index => return (index, s)
  | none => do
    let s' ← s.addDataPoint dp 0
    return (s.c5DataPointsIndex, s')

/-- The loop over the left-hand-side. -/
def recordPoints : Sample → List (String × List Element) → Except Error (List ℕ × Sample)
  | s, [] => .ok ([], s)
  | s, tup :: rest => do
    let (index, s) ← s.recordPoint tup
    let (indexes, s) ← recordPoints s rest
    return (index :: indexes, s)

/-- The right-hand-side of a Horn counterexample. -/
def recordRhs (s : Sample) : List (String × List Element) → Except Error (Option ℕ × Sample)
  | [tup] => do
    let (index, s) ← s.recordPoint tup
    return (some index, s)
  | _ => .ok (none, s)

/-- A Horn counterexample (lines 1474–1577). -/
def recordHorn (s : Sample) (cex : Cex) (recordHornClause : Bool) : Except Error Sample := do
  let (lhsIndexes, s) ← s.recordPoints cex.lhs
  assert (cex.lhs.length = lhsIndexes.length)
  let (rhsIndex, s) ← s.recordRhs cex.rhs
  if recordHornClause then
    return { s with hornClauses := s.hornClauses ++ [(lhsIndexes, rhsIndex)] }
  else return s

/-- `RecordCexForC5`. -/
def recordCexForC5 (s : Sample) (cex : Cex) (recordHornClause : Bool) : Except Error Sample :=
  match cex.lhs, cex.rhs with
  | [], [tup] => do
    let dp ← DataPoint.create tup.1 tup.2
    s.recordLabel dp 1 2
  | [tup], [] => do
    let dp ← DataPoint.create tup.1 tup.2
    s.recordLabel dp 2 1
  | lhs, rhs =>
    if 0 < lhs.length ∧ rhs.length ≤ 1 then s.recordHorn cex recordHornClause
    else .error (.internalError "Teacher received malformed counterexample")

/-- A sequence of counterexamples. -/
def recordAll (s : Sample) (cexs : List (Cex × Bool)) : Except Error Sample :=
  cexs.foldlM (fun s c => s.recordCexForC5 c.1 c.2) s

/-! ## Files -/

/-- The text of a label. -/
def labelText : ℕ → Except Error (List Char)
  | 0 => .ok ",?".toList
  | 1 => .ok ",true".toList
  | 2 => .ok ",false".toList
  | _ => .error (.internalError "Unknown label of data point")

/-- The loop of `GenerateDataFile` from position `pos`. -/
def dataLoop (functions : List Function) (pointToIndex : List (DataPoint × ℕ)) :
    ℕ → List (DataPoint × ℕ) → Except Error (List Char)
  | _, [] => .ok []
  | pos, (dp, label) :: rest => do
    let index ← match pointToIndex.lookup dp with
      | some index => .ok index
      | none => .error (.runtimeError "KeyNotFoundException")
    if index ≠ pos then
      .error (.internalError "Detected incorrect order of data points in data file")
    else do
      let row ← datapoint2String functions dp
      let text ← labelText label
      let content ← dataLoop functions pointToIndex (pos + 1) rest
      return (row ++ text) ++ '\n' :: content

/-- `GenerateDataFile`. -/
def generateDataFile (functions : List Function) (s : Sample) : Except Error (List Char) :=
  dataLoop functions s.c5samplePointToIndex 0 s.c5samplePointToClassAttr

/-- A line of the Horn file. -/
def hornLine (clause : List ℕ × Option ℕ) : List Char :=
  (clause.1.flatMap fun index => decimal index ++ [',']) ++
    match clause.2 with
    | none => ['_']
    | some index => decimal index

/-- `GenerateHornFile`. -/
def generateHornFile (s : Sample) : List Char :=
  s.hornClauses.flatMap fun clause => hornLine clause ++ ['\n']

end Sample

/-! ## The invariant of the sample -/

variable {functions : List Function} {s s' : Sample} {dp : DataPoint}

/-- The data point belongs to one of the functions. -/
def Known (functions : List Function) (dp : DataPoint) : Prop :=
  (∃ f ∈ functions, f.name = dp.functionName ∧ dp.value.length = f.inParams.length) ∧
    ∀ n ∈ dp.value, IsInt32 n

/-- The points are numbered in the order of insertion, have labels, and Horn clauses
    refer to points. -/
structure SampleInv (functions : List Function) (s : Sample) : Prop where
  keys : keys s.c5samplePointToClassAttr = keys s.c5samplePointToIndex
  nodup : (Dictionary.keys s.c5samplePointToIndex).Nodup
  indices : s.c5samplePointToIndex.map Prod.snd = List.range s.c5DataPointsIndex
  bound : s.c5DataPointsIndex ≤ maxPrimeArrayLength
  labels : ∀ e ∈ s.c5samplePointToClassAttr, e.2 ≤ 2
  known : ∀ dp ∈ Dictionary.keys s.c5samplePointToIndex, Known functions dp
  clauses : ∀ c ∈ s.hornClauses, c.1 ≠ [] ∧ (∀ i ∈ c.1, i < s.c5DataPointsIndex) ∧
    ∀ i ∈ c.2, i < s.c5DataPointsIndex

theorem SampleInv.empty (functions : List Function) : SampleInv functions {} where
  keys := rfl
  nodup := List.nodup_nil
  indices := rfl
  bound := Nat.zero_le _
  labels := by simp
  known := by simp [Dictionary.keys]
  clauses := by simp

/-- What recording changes: points are added, and Horn clauses stay. -/
structure Extends (s s' : Sample) : Prop where
  le : s.c5DataPointsIndex ≤ s'.c5DataPointsIndex
  clauses : s'.hornClauses = s.hornClauses

theorem Extends.trans {s'' : Sample} (h : Extends s s') (h' : Extends s' s'') : Extends s s'' :=
  ⟨h.le.trans h'.le, h'.clauses.trans h.clauses⟩

theorem SampleInv.length (h : SampleInv functions s) :
    s.c5samplePointToIndex.length = s.c5DataPointsIndex := by
  have hlen := congrArg List.length h.indices
  rwa [List.length_map, List.length_range] at hlen

theorem SampleInv.index_lt (h : SampleInv functions s) {i : ℕ}
    (hi : s.c5samplePointToIndex.lookup dp = some i) : i < s.c5DataPointsIndex := by
  have hmem : i ∈ s.c5samplePointToIndex.map Prod.snd := List.mem_map.mpr ⟨_, mem_of_lookup hi, rfl⟩
  rwa [h.indices, List.mem_range] at hmem

/-- Different points have different indices. -/
theorem SampleInv.unique_index (h : SampleInv functions s) {dp' : DataPoint} {i : ℕ}
    (hi : s.c5samplePointToIndex.lookup dp = some i)
    (hi' : s.c5samplePointToIndex.lookup dp' = some i) : dp = dp' := by
  have hnd : (s.c5samplePointToIndex.map Prod.snd).Nodup := h.indices ▸ List.nodup_range
  have heq : (dp, i) = (dp', i) :=
    List.inj_on_of_nodup_map hnd (mem_of_lookup hi) (mem_of_lookup hi') rfl
  exact congrArg Prod.fst heq

/-- A new point gets the next index. -/
theorem addDataPoint_inv (h : SampleInv functions s) (hdp : Known functions dp)
    (hnew : dp ∉ Dictionary.keys s.c5samplePointToIndex) {label : ℕ} (hlabel : label ≤ 2)
    (hrun : s.addDataPoint dp label = .ok s') :
    SampleInv functions s' ∧ s'.c5DataPointsIndex = s.c5DataPointsIndex + 1 ∧ Extends s s' := by
  unfold Sample.addDataPoint at hrun
  split_ifs at hrun with hroom
  have hnew' : dp ∉ Dictionary.keys s.c5samplePointToClassAttr := by rwa [h.keys]
  rw [← Except.ok.inj hrun, set_of_not_mem hnew, set_of_not_mem hnew']
  refine ⟨?_, rfl, ⟨Nat.le_succ _, rfl⟩⟩
  have hkeys : ∀ v : ℕ, ∀ d : List (DataPoint × ℕ),
      Dictionary.keys (d ++ [(dp, v)]) = Dictionary.keys d ++ [dp] := by
    intro v d
    simp [Dictionary.keys]
  constructor
  · show Dictionary.keys (_ ++ _) = Dictionary.keys (_ ++ _)
    rw [hkeys, hkeys, h.keys]
  · show (Dictionary.keys (_ ++ _)).Nodup
    rw [hkeys]
    refine List.Nodup.append h.nodup (List.nodup_singleton dp) ?_
    intro x hx hx'
    rw [List.mem_singleton.mp hx'] at hx
    exact hnew hx
  · show List.map Prod.snd (_ ++ _) = List.range (_ + 1)
    rw [List.map_append, h.indices, List.range_succ]
    rfl
  · show s.c5DataPointsIndex + 1 ≤ maxPrimeArrayLength
    have hlen := h.length
    omega
  · intro e he
    rcases List.mem_append.mp he with he | he
    · exact h.labels e he
    · rw [List.mem_singleton.mp he]
      exact hlabel
  · intro x hx
    have hx' : x ∈ Dictionary.keys s.c5samplePointToIndex ++ [dp] := by
      rw [← hkeys s.c5DataPointsIndex]
      exact hx
    rcases List.mem_append.mp hx' with hx' | hx'
    · exact h.known x hx'
    · rw [List.mem_singleton.mp hx']
      exact hdp
  · intro c hc
    obtain ⟨hne, hlhs, hrhs⟩ := h.clauses c hc
    exact ⟨hne, fun i hi => Nat.lt_succ_of_lt (hlhs i hi), fun i hi =>
      Nat.lt_succ_of_lt (hrhs i hi)⟩

/-- A label is attached to a new or an unlabelled point. -/
theorem recordLabel_inv (h : SampleInv functions s) (hdp : Known functions dp)
    {label forbidden : ℕ} (hlabel : label ≤ 2)
    (hrun : s.recordLabel dp label forbidden = .ok s') : SampleInv functions s' := by
  unfold Sample.recordLabel at hrun
  cases hlookup : s.c5samplePointToIndex.lookup dp with
  | none =>
    rw [hlookup, Option.isSome_none, if_neg Bool.false_ne_true] at hrun
    exact (addDataPoint_inv h hdp (not_mem_keys_iff.mpr hlookup) hlabel hrun).1
  | some i =>
    rw [hlookup, Option.isSome_some, if_pos rfl] at hrun
    have hmem : dp ∈ Dictionary.keys s.c5samplePointToClassAttr := by
      rw [h.keys]
      exact mem_keys_of_mem (mem_of_lookup hlookup)
    cases hold : s.c5samplePointToClassAttr.lookup dp with
    | none => exact absurd hmem (not_mem_keys_iff.mpr hold)
    | some old =>
      rw [hold] at hrun
      obtain ⟨_, _, hrun⟩ := bind_ok.mp hrun
      rw [← Except.ok.inj hrun]
      refine { h with keys := ?_, labels := ?_ }
      · rw [keys_set_of_mem hmem, h.keys]
      · intro e he
        rcases mem_set he with he | rfl
        · exact h.labels e he
        · exact hlabel

/-! ## Recording counterexamples -/

/-- A tuple of a counterexample belongs to one of the functions. -/
def WellFormed (functions : List Function) (tup : String × List Element) : Prop :=
  ∃ f ∈ functions, f.name = tup.1 ∧ tup.2.length = f.inParams.length

theorem asInt_isInt32 {e : Element} {n : ℤ} (h : e.asInt = .ok n) : IsInt32 n := by
  cases e with
  | integer m =>
    simp only [Element.asInt] at h
    split_ifs at h with hfits
    rw [← Except.ok.inj h]
    exact hfits
  | boolean => cases h
  | dataValue => cases h
  | other => cases h

theorem signedValue_isInt32 {name : String} {arg : Element} {n : ℤ}
    (h : signedValue name arg = .ok n) : IsInt32 n := by
  obtain ⟨_, _, h⟩ := bind_ok.mp h
  split_ifs at h
  · obtain ⟨m, _, hret⟩ := bind_ok.mp h
    rw [← Except.ok.inj hret]
    exact wrap32_isInt32 _
  · exact asInt_isInt32 h

/-- The values of a data point are 32-bit numbers. -/
theorem elementValue_isInt32 {e : Element} {n : ℤ} (h : elementValue e = .ok n) : IsInt32 n := by
  unfold elementValue at h
  split at h
  · rw [← Except.ok.inj h]
    split_ifs
    · exact ⟨by norm_num, by norm_num⟩
    · exact ⟨by norm_num, by norm_num⟩
  · exact signedValue_isInt32 h
  · cases h
  · obtain ⟨_, _, h⟩ := bind_ok.mp h
    exact asInt_isInt32 h

theorem create_known {tup : String × List Element} (htup : WellFormed functions tup)
    (h : DataPoint.create tup.1 tup.2 = .ok dp) : Known functions dp := by
  obtain ⟨f, hf, hname, hlen⟩ := htup
  obtain ⟨value, hvalue, hret⟩ := bind_ok.mp h
  rw [← Except.ok.inj hret]
  have hall := mapM_ok hvalue
  refine ⟨⟨f, hf, hname, ?_⟩, fun n hn => ?_⟩
  · show value.length = f.inParams.length
    rw [← hall.length_eq, hlen]
  · obtain ⟨e, _, he⟩ := forall₂_mem_right hall hn
    exact elementValue_isInt32 he

/-- The index of a point of a Horn counterexample is one of the indices. -/
theorem recordPoint_inv (h : SampleInv functions s) {tup : String × List Element}
    (htup : WellFormed functions tup) {i : ℕ} (hrun : s.recordPoint tup = .ok (i, s')) :
    SampleInv functions s' ∧ Extends s s' ∧ i < s'.c5DataPointsIndex := by
  obtain ⟨dp, hdp, hrun⟩ := bind_ok.mp hrun
  cases hlookup : s.c5samplePointToIndex.lookup dp with
  | some index =>
    rw [hlookup] at hrun
    obtain ⟨rfl, rfl⟩ := Prod.mk.inj (Except.ok.inj hrun)
    exact ⟨h, ⟨le_rfl, rfl⟩, h.index_lt hlookup⟩
  | none =>
    rw [hlookup] at hrun
    obtain ⟨s₁, hadd, hret⟩ := bind_ok.mp hrun
    obtain ⟨rfl, rfl⟩ := Prod.mk.inj (Except.ok.inj hret)
    obtain ⟨hinv, hindex, hext⟩ := addDataPoint_inv h (create_known htup hdp)
      (not_mem_keys_iff.mpr hlookup) (Nat.zero_le 2) hadd
    exact ⟨hinv, hext, by omega⟩

theorem recordPoints_inv {tups : List (String × List Element)} : ∀ {s s' : Sample} {is : List ℕ},
    SampleInv functions s → (∀ tup ∈ tups, WellFormed functions tup) →
    s.recordPoints tups = .ok (is, s') →
    SampleInv functions s' ∧ Extends s s' ∧ (∀ i ∈ is, i < s'.c5DataPointsIndex) ∧
      is.length = tups.length := by
  induction tups with
  | nil =>
    intro s s' is h _ hrun
    obtain ⟨rfl, rfl⟩ := Prod.mk.inj (Except.ok.inj hrun)
    exact ⟨h, ⟨le_rfl, rfl⟩, by simp, rfl⟩
  | cons tup tups ih =>
    intro s s' is h htups hrun
    obtain ⟨⟨i, s₁⟩, hfirst, hrun⟩ := bind_ok.mp hrun
    obtain ⟨⟨is', s₂⟩, hrest, hret⟩ := bind_ok.mp hrun
    obtain ⟨rfl, rfl⟩ := Prod.mk.inj (Except.ok.inj hret)
    obtain ⟨h₁, hext₁, hi⟩ := recordPoint_inv h (htups tup List.mem_cons_self) hfirst
    obtain ⟨h₂, hext₂, his, hlen⟩ := ih h₁ (fun t ht => htups t (List.mem_cons_of_mem _ ht)) hrest
    refine ⟨h₂, hext₁.trans hext₂, ?_, congrArg (· + 1) hlen⟩
    intro j hj
    rcases List.mem_cons.mp hj with rfl | hj
    · exact hi.trans_le hext₂.le
    · exact his j hj

theorem recordRhs_inv (h : SampleInv functions s) {tups : List (String × List Element)}
    (htups : ∀ tup ∈ tups, WellFormed functions tup) {o : Option ℕ}
    (hrun : s.recordRhs tups = .ok (o, s')) :
    SampleInv functions s' ∧ Extends s s' ∧ ∀ i ∈ o, i < s'.c5DataPointsIndex := by
  unfold Sample.recordRhs at hrun
  split at hrun
  · obtain ⟨⟨i, s₁⟩, hfirst, hret⟩ := bind_ok.mp hrun
    obtain ⟨rfl, rfl⟩ := Prod.mk.inj (Except.ok.inj hret)
    obtain ⟨h₁, hext, hi⟩ := recordPoint_inv h (htups _ List.mem_cons_self) hfirst
    refine ⟨h₁, hext, ?_⟩
    intro j hj
    rwa [← Option.some.inj hj]
  · obtain ⟨rfl, rfl⟩ := Prod.mk.inj (Except.ok.inj hrun)
    exact ⟨h, ⟨le_rfl, rfl⟩, by simp⟩

theorem recordHorn_inv (h : SampleInv functions s) {cex : Cex} (hne : 0 < cex.lhs.length)
    (hlhs : ∀ tup ∈ cex.lhs, WellFormed functions tup)
    (hrhs : ∀ tup ∈ cex.rhs, WellFormed functions tup) {recordHornClause : Bool}
    (hrun : s.recordHorn cex recordHornClause = .ok s') : SampleInv functions s' := by
  obtain ⟨⟨is, s₁⟩, hpoints, hrun⟩ := bind_ok.mp hrun
  obtain ⟨_, _, hrun⟩ := bind_ok.mp hrun
  obtain ⟨⟨o, s₂⟩, hpoint, hrun⟩ := bind_ok.mp hrun
  obtain ⟨h₁, _, his, hlen⟩ := recordPoints_inv h hlhs hpoints
  obtain ⟨h₂, hext, ho⟩ := recordRhs_inv h₁ hrhs hpoint
  cases recordHornClause with
  | false =>
    rw [← Except.ok.inj hrun]
    exact h₂
  | true =>
    rw [← Except.ok.inj hrun]
    refine { h₂ with clauses := ?_ }
    intro c hc
    rcases List.mem_append.mp hc with hc | hc
    · exact h₂.clauses c hc
    · rw [List.mem_singleton.mp hc]
      refine ⟨?_, fun i hi => (his i hi).trans_le hext.le, ho⟩
      exact List.length_pos_iff.mp (hlen ▸ hne)

/-- All tuples of a counterexample belong to functions. -/
def Cex.WellFormed (functions : List Function) (cex : Cex) : Prop :=
  (∀ tup ∈ cex.lhs, Boogie.WellFormed functions tup) ∧ ∀ tup ∈ cex.rhs,
  Boogie.WellFormed functions tup

theorem recordCexForC5_inv (h : SampleInv functions s) {cex : Cex} (hcex : cex.WellFormed functions)
    {recordHornClause : Bool} (hrun : s.recordCexForC5 cex recordHornClause = .ok s') :
    SampleInv functions s' := by
  obtain ⟨hlhs, hrhs⟩ := hcex
  unfold Sample.recordCexForC5 at hrun
  split at hrun
  case h_1 tup _ heq =>
    obtain ⟨dp, hdp, hrun⟩ := bind_ok.mp hrun
    have htup := hrhs tup (heq ▸ List.mem_cons_self)
    exact recordLabel_inv h (create_known htup hdp) (by omega) hrun
  case h_2 tup heq _ =>
    obtain ⟨dp, hdp, hrun⟩ := bind_ok.mp hrun
    have htup := hlhs tup (heq ▸ List.mem_cons_self)
    exact recordLabel_inv h (create_known htup hdp) (by omega) hrun
  case h_3 =>
    split_ifs at hrun with hhorn
    exact recordHorn_inv h hhorn.1 hlhs hrhs hrun

/-- The invariant holds after any sequence of counterexamples. -/
theorem recordAll_inv {cexs : List (Cex × Bool)} (hcexs : ∀ c ∈ cexs, c.1.WellFormed functions)
    {s s' : Sample} (h : SampleInv functions s) (hrun : s.recordAll cexs = .ok s') :
    SampleInv functions s' := by
  refine foldlM_ok_spec (I := fun _ => SampleInv functions) (fun done c rest t t' hl ht hstep => ?_)
    h hrun
  have hc : c ∈ cexs := hl ▸ List.mem_append_right done List.mem_cons_self
  exact recordCexForC5_inv ht (hcexs c hc) hstep

end HiceDt.Boogie
