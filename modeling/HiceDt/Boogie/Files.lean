import Mathlib.Data.Finset.Sort
import HiceDt.Boogie.Sample
import HiceDt.Solver.Datapoint

/-!
# Reading the sample of the Boogie teacher

Model of `read_data_file`, `indexes2horn_constraints` and `read_horn_file`
(`hice-dt/src/boogie_io.cpp`, lines 171–494). The teacher numbers its data points, and the
learner knows them only by the position of their lines.

Results:

* `readDataFile_generateDataFile`: the points of a data file.
* `readHornFile_generateHornFile`: the clauses of a Horn file.
* `sample_transfer`: the learner reads the sample of the teacher.
-/

namespace HiceDt.Boogie

open Loop Text Dictionary Machine

/-! ## `read_data_file` -/

/-- `attributes_metadata`. -/
structure AttributesMetadata where
  numberOfCategories : List ℕ
  intNames : List String
deriving Repr

/-- The attributes that the attributes file declares. -/
def Attributes.metadata (file : Attributes) : AttributesMetadata :=
  ⟨[file.categories], file.intAttributes.map Prod.snd⟩

/-- `boogie_io_error`. -/
def boogieIoError (text : String) (lineNr : ℕ) (filename : String) : Error :=
  .runtimeError (text ++ " in line " ++ toString lineNr ++ " of " ++ filename)

/-- Empty lines and comments are skipped. -/
def isSkipped (line : List Char) : Bool := line.isEmpty || line.head? == some '#'

/-- `is_labeled` and `label`. -/
def readLabel (last : List Char) : Option (Bool × Bool) :=
  if last = "true".toList then some (true, true)
  else if last = "false".toList then some (true, false)
  else if last = "?".toList then some (false, false)
  else none

/-- A value of a categorical attribute. -/
def readCategory (filename : String) (lineNr : ℕ) (x : ℕ × List Char) : Except Error ℕ :=
  match readUnsigned 32 x.2 with
  | none => .error (boogieIoError "Unable to parse categorical data" lineNr filename)
  | some value =>
    if value ≥ x.1 then .error (boogieIoError "Invalid category value" lineNr filename)
    else .ok value

/-- A value of an integer attribute. -/
def readIntData (filename : String) (lineNr : ℕ) (item : List Char) : Except Error ℤ :=
  match readInt 32 item with
  | none => .error (boogieIoError "Unable to parse integer data" lineNr filename)
  | some value => .ok value

/-- The loop body of `read_data_file`; `n` is `number_of_datapoints`. -/
def readDataLine (metadata : AttributesMetadata) (filename : String) (lineNr n : ℕ)
    (line : List Char) : Except Error Datapoint :=
  let splitLine := getlines ',' line
  if splitLine.length ≠ metadata.numberOfCategories.length + metadata.intNames.length + 1 then
    .error (boogieIoError "Invalid format of datapoint" lineNr filename)
  else
    match readLabel (splitLine.getLastD []) with
    | none => .error (boogieIoError "Invalid classification of datapoint" lineNr filename)
    | some (isLabeled, label) => do
      let categoricalData ← (metadata.numberOfCategories.zip splitLine).mapM
        (readCategory filename lineNr)
      let intData ← ((splitLine.drop metadata.numberOfCategories.length).take
        metadata.intNames.length).mapM (readIntData filename lineNr)
      if categoricalData.length ≠ metadata.numberOfCategories.length then
        .error (boogieIoError "Data point has incorrect number of categorical attributes" lineNr
        filename)
      else if intData.length ≠ metadata.intNames.length then
        .error (boogieIoError "Data point has incorrect number of integer attributes" lineNr
        filename)
      else
        return { categoricalData := categoricalData, intData := intData, isClassified := isLabeled
                 classification := label, identifier := n % 2 ^ 32 }

/-- The loop over the lines. -/
def readDataLoop (metadata : AttributesMetadata) (filename : String) :
    ℕ → ℕ → List (List Char) → Except Error (List Datapoint)
  | _, _, [] => .ok []
  | lineNr, n, line :: lines =>
    if isSkipped line then readDataLoop metadata filename (lineNr + 1) n lines
    else do
      let dp ← readDataLine metadata filename (lineNr + 1) n line
      let datapoints ← readDataLoop metadata filename (lineNr + 1) (n + 1) lines
      return dp :: datapoints

/-- `read_data_file` on a file with the given content. -/
def readDataFile (metadata : AttributesMetadata) (filename : String) (content : List Char) :
    Except Error (List Datapoint) :=
  readDataLoop metadata filename 0 0 (getlines '\n' content)

/-! ## `read_horn_file` and `indexes2horn_constraints` -/

/-- An index of a Horn constraint; it is read as a `size_t` and stored as an `unsigned`. -/
def readIndex (filename : String) (lineNr : ℕ) (item : List Char) : Except Error ℕ :=
  match readUnsigned 64 item with
  | none => .error (boogieIoError "Unable to parse horn constraint" lineNr filename)
  | some index => .ok (index % 2 ^ 32)

/-- The consequence of a Horn constraint. -/
def readConsequence (filename : String) (lineNr : ℕ) (last : List Char) : Except Error (Finset ℕ) :=
  if last ≠ ['_'] then do
    let index ← readIndex filename lineNr last
    return {index}
  else .ok ∅

/-- The loop body of `read_horn_file`. -/
def readHornLine (filename : String) (lineNr : ℕ) (line : List Char) :
    Except Error (Finset ℕ × Finset ℕ) :=
  let splitLine := getlines ',' line
  if splitLine.length < 2 then
    .error (boogieIoError "Invalid format of horn constraint" lineNr filename)
  else do
    let premises ← splitLine.dropLast.mapM (readIndex filename lineNr)
    let consequence ← readConsequence filename lineNr (splitLine.getLastD [])
    return (premises.toFinset, consequence)

/-- The loop over the lines. -/
def readHornLoop (filename : String) : ℕ → List (List Char) →
    Except Error (List (Finset ℕ × Finset ℕ))
  | _, [] => .ok []
  | lineNr, line :: lines =>
    if isSkipped line then readHornLoop filename (lineNr + 1) lines
    else do
      let constraint ← readHornLine filename (lineNr + 1) line
      let constraints ← readHornLoop filename (lineNr + 1) lines
      return constraint :: constraints

/-- `read_horn_file` on a file with the given content. -/
def readHornFile (filename : String) (content : List Char) :
    Except Error (List (Finset ℕ × Finset ℕ)) :=
  readHornLoop filename 0 (getlines '\n' content)

/-- `&datapoints[index]` in the `i`-th constraint. -/
def pointer (size i index : ℕ) : Except Error Ptr :=
  if index ≥ size then .error (.runtimeError ("Horn constraint " ++ toString i ++ " out of bounds"))
  else .ok (.point index)

/-- The loop body of `indexes2horn_constraints`; an `std::set` is visited in increasing
    order. -/
def hornConstraint (size i : ℕ) (hornPair : Finset ℕ × Finset ℕ) : Except Error HornConstraint := do
  let premises ← hornPair.1.sort.mapM (pointer size i)
  match hornPair.2.sort.head? with
  | none => return { premises := premises, conclusion := none }
  | some index => do
    let consequent ← pointer size i index
    return { premises := premises, conclusion := some consequent }

/-- `indexes2horn_constraints`; `size` is the number of data points. -/
def indexes2hornConstraints (size : ℕ) (hornConstraintsAsIndexes : List (Finset ℕ × Finset ℕ)) :
    Except Error (List HornConstraint) :=
  (hornConstraintsAsIndexes.zipIdx 1).mapM fun x => hornConstraint size x.2 x.1

/-! ## Rows -/

variable {functions : List Function} {file : Attributes} {dp : DataPoint}

/-- The data point's function with its position and the row. -/
theorem Known.row (hnd : (functions.map Function.name).Nodup) (h : Known functions dp) :
    ∃ before f after, functions = before ++ f :: after ∧ f.name = dp.functionName ∧
      dp.value.length = f.inParams.length ∧
      datapointRow functions dp = .ok (before.length, functions.flatMap (block wrap32 dp)) := by
  obtain ⟨⟨f, hf, hname, hlen⟩, _⟩ := h
  obtain ⟨before, after, rfl⟩ := List.append_of_mem hf
  exact ⟨before, f, after, rfl, hname, hlen, rowWith_eq hnd hname hlen.le⟩

/-- The number of fields does not depend on the arithmetic. -/
theorem length_block (machine : ℤ → ℤ) (dp : DataPoint) (g : Function)
    (h : g.name = dp.functionName → dp.value.length = g.inParams.length) :
    (block machine dp g).length = g.declared.length := by
  have hoct : ∀ x, (octagonal machine x).length = (octagonal id x).length := by
    intro x
    unfold octagonal
    split_ifs
    · rfl
    · rfl
  unfold block
  split_ifs with hname
  · rw [(ownFields_agree (h hname)).length_eq, List.length_append, List.length_append,
      List.length_flatMap, List.length_flatMap, funext hoct]
  · exact (otherFields_agree g).length_eq.symm

/-- There are as many fields as attributes. -/
theorem length_fields (hfile : generateAttributesFile functions = .ok file)
    (hlen : ∀ g ∈ functions, g.name = dp.functionName → dp.value.length = g.inParams.length) :
    (functions.flatMap (block wrap32 dp)).length = file.metadata.intNames.length := by
  obtain ⟨_, hentries⟩ := generateAttributesFile_ok hfile
  have hsum : List.Forall₂ (fun g (entry : String × List (String × Expr)) =>
      (block wrap32 dp g).length = entry.2.length) functions file.attribute2Expr := by
    refine ((List.forall₂_and_left functions _).mpr ⟨fun g hg => hg, hentries⟩).imp ?_
    rintro g entry ⟨hg, rfl, _⟩
    exact length_block wrap32 dp g (hlen g hg)
  have hlens : functions.map (fun g => (block wrap32 dp g).length) =
      file.attribute2Expr.map fun entry => entry.2.length := by
    rw [← List.forall₂_eq_eq_eq, List.forall₂_map_left_iff, List.forall₂_map_right_iff]
    exact hsum
  rw [List.length_flatMap, hlens]
  simp [Attributes.metadata, Attributes.intAttributes, List.length_flatMap]

/-- The fields are 32-bit numbers. -/
theorem fields_isInt32 (h : ∀ n ∈ dp.value, IsInt32 n) :
    ∀ x ∈ functions.flatMap (block wrap32 dp), IsInt32 x := by
  intro x hx
  obtain ⟨g, _, hx⟩ := List.mem_flatMap.mp hx
  have hzero : IsInt32 0 := ⟨by norm_num, by norm_num⟩
  unfold block at hx
  split_ifs at hx
  · rcases List.mem_append.mp hx with hx | hx
    · exact h x hx
    · obtain ⟨y, _, hx⟩ := List.mem_flatMap.mp hx
      unfold octagonal at hx
      split_ifs at hx
      · rcases List.mem_pair.mp hx with rfl | rfl
        · exact wrap32_isInt32 _
        · exact wrap32_isInt32 _
      · cases hx
  · obtain ⟨_, _, rfl⟩ := forall₂_mem_right (otherFields_agree g) hx
    exact hzero

/-! ## The data file is read back -/

/-- The object that stands for the data point with the given label at position `i`. -/
def Represents (functions : List Function) (dp : DataPoint) (label i : ℕ) (d : Datapoint) : Prop :=
  ∃ category fields, datapointRow functions dp = .ok (category, fields) ∧
    d = { categoricalData := [category], intData := fields, isClassified := label ≠ 0
          classification := label = 1, identifier := i }

/-- The line of the data file for a data point with a label. -/
def IsLine (functions : List Function) (e : DataPoint × ℕ) (line : List Char) : Prop :=
  ∃ row text, datapoint2String functions e.1 = .ok row ∧ Sample.labelText e.2 = .ok text ∧
  line = row ++ text

theorem labelText_ok {label : ℕ} (h : label ≤ 2) : ∃ last,
    Sample.labelText label = .ok (',' :: last) ∧
    last ≠ [] ∧ ',' ∉ last ∧ '\n' ∉ last ∧
    readLabel last = some (decide (label ≠ 0), decide (label = 1)) := by
  obtain rfl | rfl | rfl : label = 0 ∨ label = 1 ∨ label = 2 := by omega
  · exact ⟨"?".toList, rfl, by decide, by decide, by decide, by decide⟩
  · exact ⟨"true".toList, rfl, by decide, by decide, by decide, by decide⟩
  · exact ⟨"false".toList, rfl, by decide, by decide, by decide, by decide⟩

/-- Items with delimiters before them are items with delimiters behind them. -/
theorem delimited_eq (delim : Char) (items : List (List Char)) : ∀ item last : List Char,
    item ++ items.flatMap (delim :: ·) ++ delim :: last =
      (item :: items).flatMap (· ++ [delim]) ++ last := by
  induction items with
  | nil =>
    intro item last
    simp
  | cons next items ih =>
    intro item last
    rw [List.flatMap_cons, List.flatMap_cons, List.append_assoc (item ++ [delim]), ← ih next last]
    simp

/-- The fields of a line. -/
theorem getlines_row (category : ℕ) (fields : List ℤ) {last : List Char} (hne : last ≠ [])
    (hlast : ',' ∉ last) :
    getlines ',' (decimal category ++ fields.flatMap (fun x => ',' :: decimalInt x) ++ ',' :: last)
      =
      decimal category :: (fields.map decimalInt ++ [last]) := by
  have hfields : fields.flatMap (fun x => ',' :: decimalInt x) =
      (fields.map decimalInt).flatMap (',' :: ·) := by rw [List.flatMap_map]
  rw [hfields, delimited_eq, getlines_flatMap, getlines_last hlast hne]
  · rfl
  · intro item hitem
    rcases List.mem_cons.mp hitem with rfl | hitem
    · intro hmem
      exact ne_of_isDigit (isDigit_of_mem_decimal hmem) rfl rfl
    · obtain ⟨x, _, rfl⟩ := List.mem_map.mp hitem
      exact not_mem_decimalInt rfl (by decide)

/-- The values of a line are read back. -/
theorem readDataLine_row {metadata : AttributesMetadata} {categories category label n : ℕ}
    {fields : List ℤ} {last : List Char} (hcategories : metadata.numberOfCategories = [categories])
    (hlen : fields.length = metadata.intNames.length) (hcategory : category < categories)
    (hbound : category < 2 ^ 32) (hfields : ∀ x ∈ fields, IsInt32 x) (hne : last ≠ [])
    (hlast : ',' ∉ last) (hlabel : readLabel last = some (decide (label ≠ 0), decide (label = 1)))
    (hn : n < 2 ^ 32) (filename : String) (lineNr : ℕ) :
    readDataLine metadata filename lineNr n
        (decimal category ++ fields.flatMap (fun x => ',' :: decimalInt x) ++ ',' :: last) =
      .ok { categoricalData := [category], intData := fields, isClassified := label ≠ 0
            classification := label = 1, identifier := n } := by
  have hsplit := getlines_row category fields hne hlast
  have hsize : ¬ (decimal category :: (fields.map decimalInt ++ [last])).length ≠
      [categories].length + metadata.intNames.length + 1 := by
    simp only [List.length_cons, List.length_append, List.length_map, List.length_nil, hlen]
    omega
  have hgetLast : (decimal category :: (fields.map decimalInt ++ [last])).getLastD [] = last := by
    rw [← List.cons_append, List.getLastD_concat]
  have hcat : ([categories].zip (decimal category :: (fields.map decimalInt ++ [last]))).mapM
      (readCategory filename lineNr) = .ok [category] := by
    refine mapM_returns (.cons ?_ .nil)
    show readCategory filename lineNr (categories, decimal category) = .ok category
    rw [readCategory, readUnsigned_decimal hbound]
    exact if_neg (Nat.not_le.mpr hcategory)
  have hint : (((decimal category :: (fields.map decimalInt ++ [last])).drop
    [categories].length).take
      metadata.intNames.length).mapM (readIntData filename lineNr) = .ok fields := by
    have htake : ((decimal category :: (fields.map decimalInt ++ [last])).drop
      [categories].length).take
        metadata.intNames.length = fields.map decimalInt := by
      rw [← hlen]
      exact List.take_left' (List.length_map _)
    rw [htake]
    refine mapM_returns ?_
    rw [List.forall₂_map_left_iff, List.forall₂_same]
    intro x hx
    rw [readIntData, readInt_decimalInt (hfields x hx).1 (hfields x hx).2]
  unfold readDataLine
  simp only [hsplit, hcategories]
  rw [if_neg hsize, hgetLast, hlabel]
  simp only [hcat, hint, bind, Except.bind]
  rw [if_neg (by simp), if_neg (by simp [hlen]), Nat.mod_eq_of_lt hn]
  rfl

/-- A line stands for its data point. -/
theorem readDataLine_isLine (hnd : (functions.map Function.name).Nodup)
    (hcount : functions.length < 2 ^ 32) (hfile : generateAttributesFile functions = .ok file)
    {e : DataPoint × ℕ} (hknown : Known functions e.1) (hlabel : e.2 ≤ 2) :
    ∃ line, IsLine functions e line ∧ '\n' ∉ line ∧ isSkipped line = false ∧
      ∀ filename lineNr n, n < 2 ^ 32 → ∃ d,
        readDataLine file.metadata filename lineNr n line = .ok d ∧
          Represents functions e.1 e.2 n d := by
  obtain ⟨before, f, after, hsplit, hname, hlen, hrow⟩ := hknown.row hnd
  obtain ⟨last, htext, hne, hcomma, hnewline, hread⟩ := labelText_ok hlabel
  have hbefore : before.length < functions.length := by
    rw [hsplit, List.length_append, List.length_cons]
    omega
  have hother : ∀ g ∈ functions, g.name = e.1.functionName →
      e.1.value.length = g.inParams.length := by
    intro g hg hgname
    rw [← List.inj_on_of_nodup_map hnd (hsplit ▸ List.mem_append_right _ List.mem_cons_self) hg
      (hname.trans hgname.symm)]
    exact hlen
  refine ⟨_, ⟨_, _, by rw [datapoint2String, hrow]; rfl, htext, rfl⟩, ?_, ?_, ?_⟩
  · intro hmem
    rcases List.mem_append.mp hmem with hmem | hmem
    · rcases List.mem_append.mp hmem with hmem | hmem
      · exact ne_of_isDigit (isDigit_of_mem_decimal hmem) rfl rfl
      · obtain ⟨x, _, hmem⟩ := List.mem_flatMap.mp hmem
        rcases List.mem_cons.mp hmem with hmem | hmem
        · revert hmem
          decide
        · exact not_mem_decimalInt rfl (by decide) hmem
    · rcases List.mem_cons.mp hmem with hmem | hmem
      · revert hmem
        decide
      · exact hnewline hmem
  · obtain ⟨c, cs, hc, hdigit⟩ := decimal_cons before.length
    have hhash : c ≠ '#' := ne_of_isDigit hdigit rfl
    rw [hc]
    simp [isSkipped, hhash]
  · intro filename lineNr n hn
    have hcategories : file.metadata.numberOfCategories = [functions.length] := by
      rw [Attributes.metadata, (generateAttributesFile_ok hfile).1]
    exact ⟨_, readDataLine_row hcategories (length_fields hfile hother) hbefore
      (hbefore.trans hcount) (fields_isInt32 hknown.2) hne hcomma hread hn filename lineNr,
      _, _, hrow, rfl⟩

/-- The lines that are written, and the points that are read from them. -/
theorem dataLoop_read {pointToIndex : List (DataPoint × ℕ)} {R : DataPoint × ℕ → List Char → Prop}
    {entries : List (DataPoint × ℕ)}
    (hline : ∀ e ∈ entries, ∃ line, IsLine functions e line ∧ R e line) : ∀ {pos : ℕ},
    (∀ x ∈ entries.zipIdx pos, pointToIndex.lookup x.1.1 = some x.2) →
    ∃ lines, Sample.dataLoop functions pointToIndex pos entries =
        .ok (lines.flatMap fun line => line ++ ['\n']) ∧
      List.Forall₂ R entries lines := by
  induction entries with
  | nil =>
    intro pos _
    exact ⟨[], rfl, .nil⟩
  | cons e entries ih =>
    intro pos hindex
    obtain ⟨line, ⟨row, text, hrow, htext, rfl⟩, hR⟩ := hline e List.mem_cons_self
    have hpos : pointToIndex.lookup e.1 = some pos := hindex (e, pos) List.mem_cons_self
    obtain ⟨lines, hlines, hrest⟩ := ih (fun e' he' => hline e' (List.mem_cons_of_mem _ he'))
      fun x hx => hindex x (List.mem_cons_of_mem _ hx)
    refine ⟨(row ++ text) :: lines, ?_, .cons hR hrest⟩
    simp only [Sample.dataLoop, hpos, hrow, htext, hlines, bind, Except.bind, ne_eq,
      not_true_eq_false, if_false]
    rw [List.flatMap_cons, List.append_assoc (row ++ text), List.singleton_append]
    rfl

/-- A loop over lines that stand for data points. -/
theorem readDataLoop_read {metadata : AttributesMetadata} {filename : String}
    {entries : List (DataPoint × ℕ)} {lines : List (List Char)}
    (h : List.Forall₂ (fun e line => isSkipped line = false ∧ ∀ lineNr n, n < 2 ^ 32 → ∃ d,
      readDataLine metadata filename lineNr n line = .ok d ∧ Represents functions e.1 e.2 n d)
      entries lines) : ∀ lineNr n : ℕ, n + entries.length ≤ 2 ^ 32 →
    ∃ points, readDataLoop metadata filename lineNr n lines = .ok points ∧
      List.Forall₂ (fun (x : (DataPoint × ℕ) × ℕ) d => Represents functions x.1.1 x.1.2 x.2 d)
        (entries.zipIdx n) points := by
  induction h with
  | nil =>
    intro lineNr n _
    exact ⟨[], rfl, .nil⟩
  | @cons e line entries lines hline _ ih =>
    intro lineNr n hn
    rw [List.length_cons] at hn
    obtain ⟨hskip, hread⟩ := hline
    obtain ⟨d, hd, hrep⟩ := hread (lineNr + 1) n (by omega)
    obtain ⟨points, hpoints, hrest⟩ := ih (lineNr + 1) (n + 1) (by omega)
    refine ⟨d :: points, ?_, .cons hrep hrest⟩
    rw [readDataLoop, hskip, if_neg Bool.false_ne_true, hd, hpoints]
    rfl

/-- The entries of the labels are in the order of the indices. -/
theorem SampleInv.lookup_zipIdx {s : Sample} (h : SampleInv functions s) :
    ∀ x ∈ s.c5samplePointToClassAttr.zipIdx, s.c5samplePointToIndex.lookup x.1.1 = some x.2 := by
  rintro ⟨e, i⟩ hx
  obtain ⟨hi, he⟩ := List.mem_zipIdx_iff_getElem?.mp hx |> List.getElem?_eq_some_iff.mp
  have hi' : i < s.c5samplePointToIndex.length := by
    have hlen := congrArg List.length h.keys
    simp only [Dictionary.keys, List.length_map] at hlen
    omega
  have hkey : s.c5samplePointToIndex[i].1 = e.1 := by
    have hget : (Dictionary.keys s.c5samplePointToClassAttr)[i]? =
        (Dictionary.keys s.c5samplePointToIndex)[i]? := by rw [h.keys]
    simp only [Dictionary.keys, List.getElem?_map, List.getElem?_eq_getElem hi,
      List.getElem?_eq_getElem hi', Option.map_some, Option.some.injEq] at hget
    rw [← hget, he]
  have hindex : s.c5samplePointToIndex[i].2 = i := by
    have hget : (s.c5samplePointToIndex.map Prod.snd)[i]? =
        (List.range s.c5DataPointsIndex)[i]? := by
      rw [h.indices]
    have hbound : i < s.c5DataPointsIndex := h.length ▸ hi'
    simpa [List.getElem?_eq_getElem hi', List.getElem?_range hbound] using hget
  refine lookup_of_mem h.nodup ?_
  rw [← hkey]
  have hmem := List.getElem_mem hi'
  rwa [← Prod.mk.eta (p := s.c5samplePointToIndex[i]), hindex] at hmem

/-- The data file is written, and the learner reads the points in the order of their
    indices. -/
theorem readDataFile_generateDataFile {s : Sample} (hnd : (functions.map Function.name).Nodup)
    (hcount : functions.length < 2 ^ 32) (hfile : generateAttributesFile functions = .ok file)
    (h : SampleInv functions s) (filename : String) :
    ∃ data points, s.generateDataFile functions = .ok data ∧
      readDataFile file.metadata filename data = .ok points ∧
      List.Forall₂ (fun (x : (DataPoint × ℕ) × ℕ) d => Represents functions x.1.1 x.1.2 x.2 d)
        s.c5samplePointToClassAttr.zipIdx points := by
  have hline : ∀ e ∈ s.c5samplePointToClassAttr, _ := fun e he =>
    readDataLine_isLine hnd hcount hfile (h.known e.1 (h.keys ▸ mem_keys_of_mem he)) (h.labels e he)
  obtain ⟨lines, hwrite, hlines⟩ := dataLoop_read hline h.lookup_zipIdx
  have hbound : 0 + s.c5samplePointToClassAttr.length ≤ 2 ^ 32 := by
    have hlen := congrArg List.length h.keys
    simp only [Dictionary.keys, List.length_map, h.length] at hlen
    have hmax := h.bound
    norm_num [maxPrimeArrayLength] at hmax ⊢
    omega
  obtain ⟨points, hpoints, hrep⟩ := readDataLoop_read
    (hlines.imp fun e line hR => ⟨hR.2.1, hR.2.2 filename⟩) 0 0 hbound
  refine ⟨_, points, hwrite, ?_, hrep⟩
  have hsplit : getlines '\n' (lines.flatMap fun line => line ++ ['\n']) = lines := by
    have hnewline : ∀ line ∈ lines, '\n' ∉ line := by
      intro line hmem
      obtain ⟨e, _, hR⟩ := forall₂_mem_right hlines hmem
      exact hR.1
    have hgetlines : getlines '\n' ((lines.flatMap fun line => line ++ ['\n']) ++ []) =
        lines ++ getlines '\n' [] := getlines_flatMap hnewline
    rwa [List.append_nil, getlines, List.append_nil] at hgetlines
  rw [readDataFile, hsplit]
  exact hpoints

/-! ## The Horn file is read back -/

/-- The indices of a clause as the learner stores them. -/
def clauseIndexes (clause : List ℕ × Option ℕ) : Finset ℕ × Finset ℕ :=
  (clause.1.toFinset, clause.2.toFinset)

theorem readIndex_decimal {index : ℕ} (h : index < 2 ^ 32) (filename : String) (lineNr : ℕ) :
    readIndex filename lineNr (decimal index) = .ok index := by
  have h64 : index < 2 ^ 64 := h.trans (by norm_num)
  rw [readIndex, readUnsigned_decimal h64]
  exact congrArg Except.ok (Nat.mod_eq_of_lt h)

/-- The text behind the last comma of a line. -/
def headText (conclusion : Option ℕ) : List Char := (conclusion.map decimal).getD ['_']

theorem hornLine_eq (clause : List ℕ × Option ℕ) : Sample.hornLine clause =
    (clause.1.map decimal).flatMap (fun item => item ++ [',']) ++ headText clause.2 := by
  rw [List.flatMap_map]
  obtain ⟨premises, conclusion⟩ := clause
  cases conclusion with
  | none => rfl
  | some index => rfl

theorem headText_ne {conclusion : Option ℕ} : headText conclusion ≠ [] := by
  cases conclusion with
  | none => exact List.cons_ne_nil _ _
  | some index => exact decimal_ne_nil index

theorem not_mem_headText {conclusion : Option ℕ} {c : Char} (hc : c.isDigit = false)
    (hne : c ≠ '_') :
    c ∉ headText conclusion := by
  cases conclusion with
  | none => exact fun hmem => hne (List.mem_singleton.mp hmem)
  | some index => exact fun hmem => ne_of_isDigit (isDigit_of_mem_decimal hmem) hc rfl

theorem readConsequence_headText {conclusion : Option ℕ} (h : ∀ i ∈ conclusion, i < 2 ^ 32)
    (filename : String) (lineNr : ℕ) :
    readConsequence filename lineNr (headText conclusion) = .ok conclusion.toFinset := by
  cases conclusion with
  | none => rfl
  | some index =>
    have hne : headText (some index) ≠ ['_'] := by
      intro heq
      have hmem : '_' ∈ decimal index := by
        rw [show decimal index = ['_'] from heq]
        exact List.mem_singleton_self _
      exact ne_of_isDigit (isDigit_of_mem_decimal hmem) rfl rfl
    rw [readConsequence, if_pos hne]
    show (readIndex filename lineNr (decimal index) >>= _) = _
    rw [readIndex_decimal (h index rfl)]
    rfl

/-- A line stands for its clause. -/
theorem readHornLine_hornLine {clause : List ℕ × Option ℕ} (hne : clause.1 ≠ [])
    (hlhs : ∀ i ∈ clause.1, i < 2 ^ 32) (hrhs : ∀ i ∈ clause.2, i < 2 ^ 32) (filename : String)
    (lineNr : ℕ) :
    readHornLine filename lineNr (Sample.hornLine clause) = .ok (clauseIndexes clause) := by
  have hsplit : getlines ',' (Sample.hornLine clause) =
      clause.1.map decimal ++ [headText clause.2] := by
    rw [hornLine_eq, getlines_flatMap, getlines_last (not_mem_headText rfl (by decide)) headText_ne]
    intro item hitem hmem
    obtain ⟨i, _, rfl⟩ := List.mem_map.mp hitem
    exact ne_of_isDigit (isDigit_of_mem_decimal hmem) rfl rfl
  have hpremises : (clause.1.map decimal).mapM (readIndex filename lineNr) = .ok clause.1 := by
    refine mapM_returns ?_
    rw [List.forall₂_map_left_iff, List.forall₂_same]
    exact fun i hi => readIndex_decimal (hlhs i hi) filename lineNr
  have hlength : ¬ (clause.1.map decimal ++ [headText clause.2]).length < 2 := by
    have hpos := List.length_pos_iff.mpr hne
    simp only [List.length_append, List.length_map, List.length_singleton]
    omega
  unfold readHornLine
  simp only [hsplit]
  rw [if_neg hlength, List.dropLast_concat, List.getLastD_concat, hpremises]
  simp only [bind, Except.bind, readConsequence_headText hrhs]
  rfl

theorem isSkipped_hornLine {clause : List ℕ × Option ℕ} (hne : clause.1 ≠ []) :
    isSkipped (Sample.hornLine clause) = false := by
  obtain ⟨i, is, his⟩ := List.exists_cons_of_ne_nil hne
  obtain ⟨c, cs, hc, hdigit⟩ := decimal_cons i
  have hhash : c ≠ '#' := ne_of_isDigit hdigit rfl
  rw [hornLine_eq, his, List.map_cons, List.flatMap_cons, hc]
  simp [isSkipped, hhash]

theorem not_mem_hornLine {clause : List ℕ × Option ℕ} : '\n' ∉ Sample.hornLine clause := by
  rw [hornLine_eq]
  intro hmem
  rcases List.mem_append.mp hmem with hmem | hmem
  · obtain ⟨item, hitem, hmem⟩ := List.mem_flatMap.mp hmem
    obtain ⟨i, _, rfl⟩ := List.mem_map.mp hitem
    rcases List.mem_append.mp hmem with hmem | hmem
    · exact ne_of_isDigit (isDigit_of_mem_decimal hmem) rfl rfl
    · exact absurd (List.mem_singleton.mp hmem) (by decide)
  · exact not_mem_headText rfl (by decide) hmem

theorem readHornLoop_read {filename : String} {clauses : List (List ℕ × Option ℕ)}
    (h : ∀ c ∈ clauses, c.1 ≠ [] ∧ (∀ i ∈ c.1, i < 2 ^ 32) ∧ ∀ i ∈ c.2, i < 2 ^ 32) :
    ∀ lineNr : ℕ, readHornLoop filename lineNr (clauses.map Sample.hornLine) =
      .ok (clauses.map clauseIndexes) := by
  induction clauses with
  | nil =>
    intro lineNr
    rfl
  | cons c clauses ih =>
    intro lineNr
    obtain ⟨hne, hlhs, hrhs⟩ := h c List.mem_cons_self
    rw [List.map_cons, readHornLoop, isSkipped_hornLine hne, if_neg Bool.false_ne_true,
      readHornLine_hornLine hne hlhs hrhs, ih fun c' hc' => h c' (List.mem_cons_of_mem _ hc')]
    rfl

/-- The Horn file is read back. -/
theorem readHornFile_generateHornFile {s : Sample} (h : SampleInv functions s) (filename : String) :
    readHornFile filename s.generateHornFile = .ok (s.hornClauses.map clauseIndexes) := by
  have hsplit : getlines '\n' s.generateHornFile = s.hornClauses.map Sample.hornLine := by
    have hnewline : ∀ line ∈ s.hornClauses.map Sample.hornLine, '\n' ∉ line := by
      intro line hline
      obtain ⟨c, _, rfl⟩ := List.mem_map.mp hline
      exact not_mem_hornLine
    have hgetlines : getlines '\n' (((s.hornClauses.map Sample.hornLine).flatMap
        fun line => line ++ ['\n']) ++ []) = _ ++ getlines '\n' [] := getlines_flatMap hnewline
    rwa [List.flatMap_map, List.append_nil, getlines, List.append_nil] at hgetlines
  have hbound : s.c5DataPointsIndex ≤ 2 ^ 32 := h.bound.trans (by norm_num [maxPrimeArrayLength])
  rw [readHornFile, hsplit]
  refine readHornLoop_read (fun c hc => ?_) 0
  obtain ⟨hne, hlhs, hrhs⟩ := h.clauses c hc
  exact ⟨hne, fun i hi => (hlhs i hi).trans_le hbound, fun i hi => (hrhs i hi).trans_le hbound⟩

/-! ## Horn constraints -/

/-- The constraint has exactly the premises and the conclusion of the clause. -/
structure Transfers (clause : List ℕ × Option ℕ) (hc : HornConstraint) : Prop where
  premises : ∀ x, x ∈ hc.premises ↔ ∃ i ∈ clause.1, x = .point i
  nodup : hc.premises.Nodup
  conclusion : hc.conclusion = clause.2.map .point

theorem pointer_ok {size i index : ℕ} (h : index < size) :
    pointer size i index = .ok (.point index) :=
  if_neg (Nat.not_le.mpr h)

/-- The constraint for the indices of a clause. -/
theorem hornConstraint_clauseIndexes {size i : ℕ} {clause : List ℕ × Option ℕ}
    (hlhs : ∀ j ∈ clause.1, j < size) (hrhs : ∀ j ∈ clause.2, j < size) :
    ∃ hc, hornConstraint size i (clauseIndexes clause) = .ok hc ∧ Transfers clause hc := by
  obtain ⟨premises, conclusion⟩ := clause
  have hpremises : premises.toFinset.sort.mapM (pointer size i) =
      .ok (premises.toFinset.sort.map .point) := by
    refine mapM_returns ?_
    rw [List.forall₂_map_right_iff, List.forall₂_same]
    intro j hj
    exact pointer_ok (hlhs j (List.mem_toFinset.mp ((Finset.mem_sort _).mp hj)))
  have hmem : ∀ x, x ∈ premises.toFinset.sort.map Ptr.point ↔ ∃ j ∈ premises, x = .point j := by
    intro x
    simp only [List.mem_map, Finset.mem_sort, List.mem_toFinset, eq_comm]
  have hnodup : (premises.toFinset.sort.map Ptr.point).Nodup :=
    (Finset.sort_nodup _ _).map fun _ _ heq => Ptr.point.inj heq
  cases conclusion with
  | none =>
    refine ⟨⟨_, none, false⟩, ?_, hmem, hnodup, rfl⟩
    simp only [hornConstraint, clauseIndexes, hpremises, bind, Except.bind, Option.toFinset_none,
      Finset.sort_empty, List.head?_nil]
    rfl
  | some index =>
    refine ⟨⟨_, some (.point index), false⟩, ?_, hmem, hnodup, rfl⟩
    simp only [hornConstraint, clauseIndexes, hpremises, bind, Except.bind, Option.toFinset_some,
      Finset.sort_singleton, List.head?_cons, pointer_ok (hrhs index rfl)]
    rfl

/-- One constraint for each clause. -/
theorem indexes2hornConstraints_clauseIndexes {size : ℕ} {clauses : List (List ℕ × Option ℕ)}
    (h : ∀ c ∈ clauses, (∀ j ∈ c.1, j < size) ∧ ∀ j ∈ c.2, j < size) :
    ∃ constraints, indexes2hornConstraints size (clauses.map clauseIndexes) = .ok constraints ∧
      List.Forall₂ Transfers clauses constraints := by
  suffices H : ∀ k, ∃ constraints, ((clauses.map clauseIndexes).zipIdx k).mapM
      (fun x => hornConstraint size x.2 x.1) = .ok constraints ∧
      List.Forall₂ Transfers clauses constraints from H 1
  induction clauses with
  | nil =>
    intro k
    exact ⟨[], rfl, .nil⟩
  | cons c clauses ih =>
    intro k
    obtain ⟨hlhs, hrhs⟩ := h c List.mem_cons_self
    obtain ⟨hc, hrun, htransfers⟩ := hornConstraint_clauseIndexes (i := k) hlhs hrhs
    obtain ⟨constraints, hrest, hall⟩ := ih (fun c' hc' => h c' (List.mem_cons_of_mem _ hc'))
      (k + 1)
    refine ⟨hc :: constraints, ?_, .cons htransfers hall⟩
    rw [List.map_cons, List.zipIdx_cons, List.mapM_cons, hrun, hrest]
    rfl

/-! ## The sample is transferred -/

/-- `d` stands for the data point `dp` with the label `label` at position `i`: the category
    is the position of its function, whose attributes have the arguments as values. -/
structure StandsFor (functions : List Function) (dp : DataPoint) (label i : ℕ) (d : Datapoint) :
    Prop where
  category : ∃ c f, d.categoricalData = [c] ∧ functions[c]? = some f ∧ f.name = dp.functionName ∧
    (d.intData.drop ((functions.take c).flatMap Function.declared).length).take f.inParams.length =
      dp.value
  row : ∃ c, datapointRow functions dp = .ok (c, d.intData)
  label : d.label = if label = 0 then none else some (decide (label = 1))
  identifier : d.identifier = i

/-- The arguments of the data point among the fields. -/
theorem take_fields {before after : List Function} {f : Function}
    (hnd : ((before ++ f :: after).map Function.name).Nodup) (hf : f.name = dp.functionName)
    (hlen : dp.value.length = f.inParams.length) :
    (((before ++ f :: after).flatMap (block wrap32 dp)).drop
      (before.flatMap Function.declared).length).take f.inParams.length = dp.value := by
  have hbefore := (names_ne hnd hf).1
  have hlength : (before.flatMap Function.declared).length =
      (before.flatMap (block wrap32 dp)).length := by
    rw [List.length_flatMap, List.length_flatMap]
    refine congrArg List.sum (List.map_congr_left fun g hg => ?_)
    exact (length_block wrap32 dp g fun hname => absurd hname (hbefore g hg)).symm
  rw [hlength, List.flatMap_append, List.drop_left, List.flatMap_cons, block, if_pos hf,
    List.append_assoc, ← hlen, List.take_left]

theorem Represents.standsFor {label i : ℕ} {d : Datapoint}
    (hnd : (functions.map Function.name).Nodup)
    (hknown : Known functions dp) (h : Represents functions dp label i d) :
    StandsFor functions dp label i d := by
  obtain ⟨category, fields, hrow, rfl⟩ := h
  obtain ⟨before, f, after, rfl, hname, hlen, hrow'⟩ := hknown.row hnd
  obtain ⟨rfl, rfl⟩ := Prod.mk.inj (Except.ok.inj (hrow.symm.trans hrow'))
  refine ⟨⟨before.length, f, rfl, ?_, hname, ?_⟩, ⟨_, hrow⟩, ?_, rfl⟩
  · rw [List.getElem?_append_right le_rfl, Nat.sub_self, List.getElem?_cons_zero]
  · rw [List.take_left]
    exact take_fields hnd hname hlen
  · by_cases hlabel : label = 0
    · simp [Datapoint.label, hlabel]
    · simp [Datapoint.label, hlabel]

/-- Any sequence of counterexamples that is recorded numbers the points without gaps, the
    data file is written, and the learner reads the points in the order of their indices
    with their labels, and one constraint for each clause. -/
theorem sample_transfer (functions : List Function) (hnd : (functions.map Function.name).Nodup)
    (hcount : functions.length ≤ maxPrimeArrayLength) (file : Attributes)
    (hfile : generateAttributesFile functions = .ok file) (cexs : List (Cex × Bool))
    (hcexs : ∀ c ∈ cexs, c.1.WellFormed functions) (s : Sample)
    (hrun : ({} : Sample).recordAll cexs = .ok s) (dataFile hornFile : String) :
    s.c5samplePointToIndex.map Prod.snd = List.range s.c5DataPointsIndex ∧
    ∃ data points indexes constraints,
      s.generateDataFile functions = .ok data ∧
      readDataFile file.metadata dataFile data = .ok points ∧
      points.length = s.c5DataPointsIndex ∧
      (∀ dp i, s.c5samplePointToIndex.lookup dp = some i →
        ∃ label d, s.c5samplePointToClassAttr.lookup dp = some label ∧ points[i]? = some d ∧
          StandsFor functions dp label i d) ∧
      readHornFile hornFile s.generateHornFile = .ok indexes ∧
      indexes2hornConstraints points.length indexes = .ok constraints ∧
      List.Forall₂ Transfers s.hornClauses constraints := by
  have hinv := recordAll_inv hcexs (SampleInv.empty functions) hrun
  have hcount' : functions.length < 2 ^ 32 := by
    norm_num [maxPrimeArrayLength] at hcount ⊢
    omega
  obtain ⟨data, points, hwrite, hread, hpoints⟩ :=
    readDataFile_generateDataFile hnd hcount' hfile hinv dataFile
  have hlabels : s.c5samplePointToClassAttr.length = s.c5samplePointToIndex.length := by
    have hlen := congrArg List.length hinv.keys
    simpa only [Dictionary.keys, List.length_map] using hlen
  have hlength : points.length = s.c5DataPointsIndex := by
    rw [← hpoints.length_eq, List.length_zipIdx, hlabels, hinv.length]
  have hbounds : ∀ c ∈ s.hornClauses, (∀ j ∈ c.1, j < points.length) ∧ ∀ j ∈ c.2,
    j < points.length := fun c hc => hlength ▸ (hinv.clauses c hc).2
  obtain ⟨constraints, hconstraints, htransfers⟩ := indexes2hornConstraints_clauseIndexes hbounds
  refine ⟨hinv.indices, data, points, _, constraints, hwrite, hread, hlength, ?_,
    readHornFile_generateHornFile hinv hornFile, hconstraints, htransfers⟩
  intro dp i hi
  have hbound : i < s.c5samplePointToClassAttr.length := by
    rw [hlabels, hinv.length]
    exact hinv.index_lt hi
  have hpoint : i < points.length := hlength ▸ hinv.index_lt hi
  -- the entry at position `i` has the index `i`, so it is the one of `dp`
  have hentry : s.c5samplePointToClassAttr[i].1 = dp := hinv.unique_index
    (hinv.lookup_zipIdx (s.c5samplePointToClassAttr[i], i)
      (List.mem_zipIdx_iff_getElem?.mpr (List.getElem?_eq_getElem hbound))) hi
  have hrep := hpoints.get (i := i) (by simpa using hbound) hpoint
  simp only [List.get_eq_getElem, List.getElem_zipIdx, Nat.zero_add, hentry] at hrep
  refine ⟨_, _, lookup_of_mem (hinv.keys ▸ hinv.nodup) ?_, List.getElem?_eq_getElem hpoint,
    hrep.standsFor hnd (hinv.known dp (mem_keys_of_mem (mem_of_lookup hi)))⟩
  rw [← hentry]
  exact List.getElem_mem hbound

/-- A counterexample with a positive point, and a Horn clause with a repeated premise. -/
def cexsXY : List (Cex × Bool) :=
  [(⟨[], [("inv", [.integer 0, .integer 0])]⟩, true),
    (⟨[("inv", [.integer 0, .integer 0]), ("inv", [.integer 0, .integer 0])],
      [("inv", [.dataValue "-" [.integer 1], .integer 5])]⟩, true)]

/-- The sample after these counterexamples. -/
def sampleXY : Sample where
  c5samplePointToClassAttr := [(⟨"inv", [0, 0]⟩, 1), (⟨"inv", [-1, 5]⟩, 0)]
  c5samplePointToIndex := [(⟨"inv", [0, 0]⟩, 0), (⟨"inv", [-1, 5]⟩, 1)]
  c5DataPointsIndex := 2
  hornClauses := [([0, 0], some 1)]

theorem sample_transfer_cexsXY : ({} : Sample).recordAll cexsXY = .ok sampleXY ∧
    ∃ data points indexes constraints,
      sampleXY.generateDataFile [invariantXY] = .ok data ∧
      readDataFile attributesXY.metadata "xy.data" data = .ok points ∧
      points.length = 2 ∧
      readHornFile "xy.horn" sampleXY.generateHornFile = .ok indexes ∧
      indexes2hornConstraints points.length indexes = .ok constraints ∧
      List.Forall₂ Transfers [([0, 0], some 1)] constraints := by
  have hrun : ({} : Sample).recordAll cexsXY = .ok sampleXY := by rfl
  have hcexs : ∀ c ∈ cexsXY, c.1.WellFormed [invariantXY] := by
    simp [cexsXY, Cex.WellFormed, WellFormed, invariantXY]
  obtain ⟨_, data, points, indexes, constraints, hdata, hread, hlen, _, hhorn, hconstraints,
    hall⟩ := sample_transfer [invariantXY] (by simp) (by decide) attributesXY
      generateAttributesFile_invariantXY cexsXY hcexs sampleXY hrun "xy.data" "xy.horn"
  exact ⟨hrun, data, points, indexes, constraints, hdata, hread, hlen, hhorn, hconstraints, hall⟩

end HiceDt.Boogie
