import HiceDt.Boogie.Indices
import HiceDt.Boogie.Intervals

/-!
# The input files of the learner

Model of `read_attributes_file` (`hice-dt/src/boogie_io.cpp`, lines 53–168), and what the four
readers guarantee about the files that they accept (`main` in `hice-dt/src/hice-dt.cpp`, lines
170–184). The files are read independently of one another, except that the data file is
compared with the attributes.

Results:

* `readInputs_ok`: accepted data points have a value for every attribute.
* `readInputs_throws`: other files are rejected with an error message.
-/

namespace HiceDt.Boogie

open Loop Text

/-! ## `read_attributes_file` -/

/-- `trim`. -/
def trim (str : List Char) : List Char :=
  ((str.dropWhile isSpace).reverse.dropWhile isSpace).reverse

/-- The loop body of `read_attributes_file` on the meta data and `cur_attribute_type`. -/
def readAttributesLine (filename : String) (lineNr : ℕ) (s : AttributesMetadata × ℕ)
    (line : List Char) : Except Error (AttributesMetadata × ℕ) :=
  let splitLine := getlines ',' line
  if splitLine.headD [] = "cat".toList then
    if splitLine.length ≠ 3 then
      .error (boogieIoError "Invalid definition of categorical attribute" lineNr filename)
    else if s.2 > 0 then
      .error (boogieIoError "Unexpected categorical attribute" lineNr filename)
    else
      match readUnsigned 32 (splitLine.getD 2 []) with
      | none => .error (boogieIoError "Unable to parse number of categories" lineNr filename)
      | some numberOfCategories =>
        if numberOfCategories = 0 then
          .error (boogieIoError "Number of categories must not be 0" lineNr filename)
        else
          .ok ({ s.1 with numberOfCategories := s.1.numberOfCategories ++ [numberOfCategories] },
          s.2)
  else if splitLine.headD [] = "int".toList then
    if splitLine.length ≠ 2 then
      .error (boogieIoError "Invalid definition of integer attribute" lineNr filename)
    else
      .ok ({ s.1 with intNames := s.1.intNames ++ [String.ofList (trim (splitLine.getD 1 []))] },
        if s.2 < 1 then 1 else s.2)
  else .error (boogieIoError "Unknown attribute type" lineNr filename)

/-- The loop over the lines. -/
def readAttributesLoop (filename : String) :
    ℕ → AttributesMetadata × ℕ → List (List Char) → Except Error AttributesMetadata
  | _, s, [] => .ok s.1
  | lineNr, s, line :: lines =>
    if isSkipped line then readAttributesLoop filename (lineNr + 1) s lines
    else do
      let s ← readAttributesLine filename (lineNr + 1) s line
      readAttributesLoop filename (lineNr + 1) s lines

/-- `read_attributes_file` on a file with the given content. -/
def readAttributesFile (filename : String) (content : List Char) :
    Except Error AttributesMetadata :=
  readAttributesLoop filename 0 (⟨[], []⟩, 0) (getlines '\n' content)

/-! ## The four files -/

/-- What `main` reads. -/
structure Inputs where
  metadata : AttributesMetadata
  datapoints : List Datapoint
  hornIndexes : List (Finset ℕ × Finset ℕ)
  intervals : List (ℕ × ℕ)

/-- The readers (`hice-dt.cpp`, lines 174–184). -/
def readInputs (fileStem : String) (attributes data horn intervals : List Char) :
    Except Error Inputs := do
  let metadata ← readAttributesFile (fileStem ++ ".attributes") attributes
  let datapoints ← readDataFile metadata (fileStem ++ ".data") data
  let hornIndexes ← readHornFile (fileStem ++ ".horn") horn
  let intervals ← readIntervalsFile (fileStem ++ ".intervals") intervals
  return ⟨metadata, datapoints, hornIndexes, intervals⟩

/-- A data point has a valid value for every attribute. -/
structure Described (metadata : AttributesMetadata) (d : Datapoint) : Prop where
  categorical : List.Forall₂ (fun value n => value < n) d.categoricalData
    metadata.numberOfCategories
  int : d.intData.length = metadata.intNames.length

/-- What the readers guarantee. -/
structure Inputs.WellFormed (inputs : Inputs) : Prop where
  datapoints : ∀ d ∈ inputs.datapoints, Described inputs.metadata d
  intervals : ∀ interval ∈ inputs.intervals, interval.1 < 2 ^ 32 ∧ interval.2 < 2 ^ 32

/-! ## What is accepted -/

variable {filename : String} {lineNr n : ℕ} {line : List Char} {metadata : AttributesMetadata}

theorem readCategory_ok {x : ℕ × List Char} {value : ℕ}
    (h : readCategory filename lineNr x = .ok value) : value < x.1 := by
  unfold readCategory at h
  split at h
  · cases h
  · split_ifs at h with hge
    rw [← Except.ok.inj h]
    omega

theorem readDataLine_ok {d : Datapoint} (h : readDataLine metadata filename lineNr n line = .ok d) :
    Described metadata d := by
  unfold readDataLine at h
  dsimp only at h
  split_ifs at h
  split at h
  · cases h
  obtain ⟨categoricalData, hcategorical, h⟩ := bind_ok.mp h
  obtain ⟨intData, -, h⟩ := bind_ok.mp h
  split_ifs at h with hcount hint
  rw [← Except.ok.inj h]
  have hall := mapM_ok hcategorical
  have hlen := hall.length_eq
  rw [List.length_zip] at hlen
  rw [not_not] at hcount hint
  have hfst : (metadata.numberOfCategories.zip (getlines ',' line)).map Prod.fst =
      metadata.numberOfCategories := List.map_fst_zip (by omega)
  refine ⟨?_, hint⟩
  rw [← hfst, List.forall₂_map_right_iff]
  exact List.Forall₂.flip (hall.imp fun _ _ hread => readCategory_ok hread)

theorem readDataLoop_ok {lines : List (List Char)} : ∀ {lineNr n : ℕ} {datapoints : List Datapoint},
    readDataLoop metadata filename lineNr n lines = .ok datapoints →
      ∀ d ∈ datapoints, Described metadata d := by
  induction lines with
  | nil =>
    intro lineNr n datapoints h d hd
    rw [← Except.ok.inj h] at hd
    cases hd
  | cons line lines ih =>
    intro lineNr n datapoints h
    rw [readDataLoop] at h
    split_ifs at h
    · exact ih h
    · obtain ⟨d, hd, h⟩ := bind_ok.mp h
      obtain ⟨rest, hrest, hret⟩ := bind_ok.mp h
      rw [← Except.ok.inj hret]
      exact List.forall_mem_cons.mpr ⟨readDataLine_ok hd, ih hrest⟩

theorem readBound_ok {side : String} {item : List Char} {value : ℕ}
    (h : readBound filename lineNr side item = .ok value) : value < 2 ^ 32 := by
  unfold readBound at h
  split at h
  · cases h
  · rename_i value' hread
    obtain ⟨z, -, -, hvalue⟩ := readUnsigned_eq_some.mp hread
    have hlt := Int.emod_lt_of_pos z (b := 2 ^ 32) (by norm_num)
    rw [← hvalue] at hlt
    rw [← Except.ok.inj h]
    exact_mod_cast hlt

theorem readIntervalsLoop_ok {lines : List (List Char)} : ∀ {lineNr : ℕ} {intervals : List (ℕ × ℕ)},
    readIntervalsLoop filename lineNr lines = .ok intervals →
      ∀ interval ∈ intervals, interval.1 < 2 ^ 32 ∧ interval.2 < 2 ^ 32 := by
  induction lines with
  | nil =>
    intro lineNr intervals h interval hmem
    rw [← Except.ok.inj h] at hmem
    cases hmem
  | cons line lines ih =>
    intro lineNr intervals h
    rw [readIntervalsLoop] at h
    split_ifs at h
    · exact ih h
    · obtain ⟨interval, hinterval, h⟩ := bind_ok.mp h
      obtain ⟨rest, hrest, hret⟩ := bind_ok.mp h
      rw [← Except.ok.inj hret]
      refine List.forall_mem_cons.mpr ⟨?_, ih hrest⟩
      unfold readIntervalsLine at hinterval
      split at hinterval
      · obtain ⟨left, hleft, hinterval⟩ := bind_ok.mp hinterval
        obtain ⟨right, hright, hret'⟩ := bind_ok.mp hinterval
        rw [← Except.ok.inj hret']
        exact ⟨readBound_ok hleft, readBound_ok hright⟩
      · cases hinterval

/-- Accepted files are well formed. -/
theorem readInputs_ok {fileStem : String} {attributes data horn intervals : List Char}
    {inputs : Inputs} (h : readInputs fileStem attributes data horn intervals = .ok inputs) :
    inputs.WellFormed := by
  obtain ⟨metadata, -, h⟩ := bind_ok.mp h
  obtain ⟨datapoints, hdata, h⟩ := bind_ok.mp h
  obtain ⟨hornIndexes, -, h⟩ := bind_ok.mp h
  obtain ⟨intervals, hintervals, hret⟩ := bind_ok.mp h
  rw [← Except.ok.inj hret]
  exact ⟨readDataLoop_ok hdata, readIntervalsLoop_ok hintervals⟩

/-- The category of an accepted data point. -/
theorem Described.category {d : Datapoint} (h : Described metadata d) {rest : List ℕ}
    (hn : metadata.numberOfCategories = n :: rest) : d.categoricalData ≠ [] ∧ d.category 0 < n := by
  have hall := h.categorical
  rw [hn, List.forall₂_cons_right_iff] at hall
  obtain ⟨value, values, hlt, -, hdata⟩ := hall
  rw [Datapoint.category, hdata]
  exact ⟨List.cons_ne_nil _ _, hlt⟩

/-! ## What is rejected -/

theorem readAttributesLine_throws {s : AttributesMetadata × ℕ} :
    Ensures IsRuntimeError (fun _ => True) (readAttributesLine filename lineNr s line) := by
  unfold readAttributesLine
  dsimp only
  split_ifs
  · exact boogieIoError_isRuntimeError _
  · exact boogieIoError_isRuntimeError _
  · split
    · exact boogieIoError_isRuntimeError _
    · split_ifs
      · exact boogieIoError_isRuntimeError _
      · trivial
  · exact boogieIoError_isRuntimeError _
  · trivial
  · trivial
  · exact boogieIoError_isRuntimeError _

theorem readAttributesLoop_throws {lines : List (List Char)} :
    ∀ {lineNr : ℕ} {s : AttributesMetadata × ℕ},
      Ensures IsRuntimeError (fun _ => True) (readAttributesLoop filename lineNr s lines) := by
  induction lines with
  | nil => exact fun {_ _} => trivial
  | cons line lines ih =>
    intro lineNr s
    rw [readAttributesLoop]
    split_ifs
    · exact ih
    · exact readAttributesLine_throws.bind fun _ _ => ih

theorem readDataLine_throws :
    Ensures IsRuntimeError (fun _ => True) (readDataLine metadata filename lineNr n line) := by
  have hcategory : ∀ x, Ensures IsRuntimeError (fun _ => True)
      (readCategory filename lineNr x) := by
    intro x
    unfold readCategory
    split
    · exact boogieIoError_isRuntimeError _
    · split_ifs
      · exact boogieIoError_isRuntimeError _
      · trivial
  have hint : ∀ item, Ensures IsRuntimeError (fun _ => True)
      (readIntData filename lineNr item) := by
    intro item
    unfold readIntData
    split
    · exact boogieIoError_isRuntimeError _
    · trivial
  unfold readDataLine
  dsimp only
  split_ifs
  · exact boogieIoError_isRuntimeError _
  · split
    · exact boogieIoError_isRuntimeError _
    · refine (ensures_mapM fun x _ => hcategory x).bind fun _ _ => ?_
      refine (ensures_mapM fun item _ => hint item).bind fun _ _ => ?_
      split_ifs
      · exact boogieIoError_isRuntimeError _
      · exact boogieIoError_isRuntimeError _
      · trivial

theorem readDataLoop_throws {lines : List (List Char)} : ∀ {lineNr n : ℕ},
    Ensures IsRuntimeError (fun _ => True) (readDataLoop metadata filename lineNr n lines) := by
  induction lines with
  | nil => exact fun {_ _} => trivial
  | cons line lines ih =>
    intro lineNr n
    rw [readDataLoop]
    split_ifs
    · exact ih
    · exact readDataLine_throws.bind fun _ _ => ih.bind fun _ _ => trivial

theorem readIntervalsLine_throws :
    Ensures IsRuntimeError (fun _ => True) (readIntervalsLine filename lineNr line) := by
  have hbound : ∀ side item, Ensures IsRuntimeError (fun _ => True)
      (readBound filename lineNr side item) := by
    intro side item
    unfold readBound
    split
    · exact boogieIoError_isRuntimeError _
    · trivial
  unfold readIntervalsLine
  split
  · exact (hbound _ _).bind fun _ _ => (hbound _ _).bind fun _ _ => trivial
  · exact boogieIoError_isRuntimeError _

theorem readIntervalsLoop_throws {lines : List (List Char)} : ∀ {lineNr : ℕ},
    Ensures IsRuntimeError (fun _ => True) (readIntervalsLoop filename lineNr lines) := by
  induction lines with
  | nil => exact fun {_} => trivial
  | cons line lines ih =>
    intro lineNr
    rw [readIntervalsLoop]
    split_ifs
    · exact ih
    · exact readIntervalsLine_throws.bind fun _ _ => ih.bind fun _ _ => trivial

/-- Files that are not accepted are rejected with an error message. -/
theorem readInputs_throws {fileStem : String} {attributes data horn intervals : List Char} :
    Ensures IsRuntimeError (fun _ => True) (readInputs fileStem attributes data horn intervals) :=
  readAttributesLoop_throws.bind fun _ _ => readDataLoop_throws.bind fun _ _ =>
    readHornLoop_throws.bind fun _ _ => readIntervalsLoop_throws.bind fun _ _ => trivial

end HiceDt.Boogie
