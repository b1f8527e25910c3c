import HiceDt.Boogie.Files

/-!
# The indices of a Horn file

What `read_horn_file` followed by `indexes2horn_constraints` makes of the numbers in a file
(`hice-dt/src/boogie_io.cpp`, lines 331–494). A number is read as a `size_t`, where a minus
sign is accepted, and stored as an `unsigned`; only then it is compared with the number of
data points.

Results:

* `readIndex_eq_ok`: the index that is read for a written number.
* `readHornConstraints_ok`, `readHornConstraints_returns`: the files that are accepted.
* `indicesChecked_iff`: when the check of the indices is exact.
-/

namespace HiceDt.Boogie

open Loop Text

/-- `read_horn_file` with the data points (lines 387–390); `size` is their number. -/
def readHornConstraints (filename : String) (content : List Char) (size : ℕ) :
    Except Error (List HornConstraint) := do
  let hornConstraintsAsIndexes ← readHornFile filename content
  indexes2hornConstraints size hornConstraintsAsIndexes

/-! ## Written indices -/

/-- The lines that are neither empty nor comments. -/
def hornLines (content : List Char) : List (List Char) :=
  (getlines '\n' content).filter fun line => !isSkipped line

/-- The items of a line before the last one. -/
def premiseItems (line : List Char) : List (List Char) := (getlines ',' line).dropLast

/-- The last item of a line. -/
def headItem (line : List Char) : List Char := (getlines ',' line).getLastD []

/-- The items of a line that stand for data points. -/
def indexItems (line : List Char) : List (List Char) :=
  premiseItems line ++ if headItem line = ['_'] then [] else [headItem line]

/-- The constraint has the data points of the written numbers, and all of them exist. -/
structure Refers (size : ℕ) (line : List Char) (hc : HornConstraint) : Prop where
  bounds : ∀ item ∈ indexItems line, ∃ i < size, integer item = some (i : ℤ)
  premises : ∀ x, x ∈ hc.premises ↔ ∃ item ∈ premiseItems line, ∃ i : ℕ,
    integer item = some (i : ℤ) ∧ x = .point i
  conclusion : ∀ x, hc.conclusion = some x ↔ headItem line ≠ ['_'] ∧ ∃ i : ℕ,
    integer (headItem line) = some (i : ℤ) ∧ x = .point i

/-- Accepted indices are data points, and other indices are rejected. -/
def IndicesChecked (filename : String) (content : List Char) (size : ℕ) : Prop :=
  (∀ constraints, readHornConstraints filename content size = .ok constraints →
    List.Forall₂ (Refers size) (hornLines content) constraints) ∧
  ((∃ line ∈ hornLines content, ∃ item ∈ indexItems line, ∃ z,
      integer item = some z ∧ ¬ (0 ≤ z ∧ z < size)) →
    ∃ what, readHornConstraints filename content size = .error (.runtimeError what))

/-! ## Reading an index -/

/-- The index that is stored for an item. -/
def ReadsAs (item : List Char) (index : ℕ) : Prop :=
  ∃ z, integer item = some z ∧ z.natAbs < 2 ^ 64 ∧ (index : ℤ) = z % 2 ^ 32

variable {filename : String} {lineNr size : ℕ} {line item : List Char}

theorem readIndex_eq_ok {index : ℕ} :
    readIndex filename lineNr item = .ok index ↔ ReadsAs item index := by
  have hmod : ∀ value : ℕ, ∀ z : ℤ, (value : ℤ) = z % 2 ^ 64 →
      ((value % 2 ^ 32 : ℕ) : ℤ) = z % 2 ^ 32 := by
    intro value z h
    push_cast
    rw [h, Int.emod_emod_of_dvd z (by norm_num)]
  unfold readIndex ReadsAs
  cases hread : readUnsigned 64 item with
  | none =>
    refine iff_of_false (fun h => by cases h) ?_
    rintro ⟨z, hz, hbound, -⟩
    obtain ⟨value, hvalue⟩ := Int.eq_ofNat_of_zero_le
      (Int.emod_nonneg z (b := 2 ^ 64) (by norm_num))
    have hsome := readUnsigned_eq_some.mpr ⟨z, hz, hbound, hvalue.symm⟩
    rw [hread] at hsome
    cases hsome
  | some value =>
    obtain ⟨z, hz, hbound, hvalue⟩ := readUnsigned_eq_some.mp hread
    dsimp only
    rw [Except.ok.injEq]
    constructor
    · rintro rfl
      exact ⟨z, hz, hbound, hmod value z hvalue⟩
    · rintro ⟨z', hz', -, hindex⟩
      obtain rfl := Option.some.inj (hz.symm.trans hz')
      exact_mod_cast (hmod value z hvalue).trans hindex.symm

theorem ReadsAs.lt {index : ℕ} (h : ReadsAs item index) : index < 2 ^ 32 := by
  obtain ⟨z, -, -, hindex⟩ := h
  have hlt := Int.emod_lt_of_pos z (b := 2 ^ 32) (by norm_num)
  rw [← hindex] at hlt
  exact_mod_cast hlt

/-- A written number that is small enough is the index. -/
theorem ReadsAs.eq {index i : ℕ} (h : ReadsAs item index) (hi : integer item = some (i : ℤ))
    (hlt : i < 2 ^ 32) : index = i := by
  obtain ⟨z, hz, -, hindex⟩ := h
  obtain rfl := Option.some.inj (hz.symm.trans hi)
  rw [Int.emod_eq_of_lt (Int.natCast_nonneg i) (by exact_mod_cast hlt)] at hindex
  exact_mod_cast hindex

/-! ## Reading a line -/

/-- The line has these premises and this conclusion. -/
structure LineReads (line : List Char) (clause : List ℕ × Option ℕ) : Prop where
  format : 2 ≤ (getlines ',' line).length
  premises : List.Forall₂ ReadsAs (premiseItems line) clause.1
  conclusion : (headItem line = ['_'] ∧ clause.2 = none) ∨
    headItem line ≠ ['_'] ∧ ∃ index, ReadsAs (headItem line) index ∧ clause.2 = some index

theorem readConsequence_eq_ok {last : List Char} {consequence : Finset ℕ} :
    readConsequence filename lineNr last = .ok consequence ↔
      (last = ['_'] ∧ consequence = ∅) ∨
        last ≠ ['_'] ∧ ∃ index, ReadsAs last index ∧ consequence = {index} := by
  unfold readConsequence
  split_ifs with h
  · rw [bind_ok]
    constructor
    · rintro ⟨index, hread, hpure⟩
      exact .inr ⟨h, index, readIndex_eq_ok.mp hread, (Except.ok.inj hpure).symm⟩
    · rintro (⟨hlast, -⟩ | ⟨-, index, hread, rfl⟩)
      · exact absurd hlast h
      · exact ⟨index, readIndex_eq_ok.mpr hread, rfl⟩
  · rw [not_not] at h
    rw [Except.ok.injEq, eq_comm]
    constructor
    · intro hempty
      exact .inl ⟨h, hempty⟩
    · rintro (⟨-, hempty⟩ | ⟨hlast, -⟩)
      · exact hempty
      · exact absurd h hlast

theorem readHornLine_eq_ok {constraint : Finset ℕ × Finset ℕ} :
    readHornLine filename lineNr line = .ok constraint ↔
      ∃ clause, LineReads line clause ∧ constraint = clauseIndexes clause := by
  unfold readHornLine
  dsimp only
  split_ifs with hformat
  · refine iff_of_false (fun h => by cases h) ?_
    rintro ⟨clause, hclause, -⟩
    have h := hclause.format
    omega
  · simp only [bind_ok]
    constructor
    · rintro ⟨premises, hpremises, consequence, hconsequence, hpure⟩
      have hall := (mapM_ok hpremises).imp fun _ _ h => readIndex_eq_ok.mp h
      have hpair := (Except.ok.inj hpure).symm
      rcases readConsequence_eq_ok.mp hconsequence with ⟨hlast, rfl⟩ | ⟨hlast, index, hread, rfl⟩
      · exact ⟨(premises, none), ⟨by omega, hall, .inl ⟨hlast, rfl⟩⟩, hpair⟩
      · exact ⟨(premises, some index), ⟨by omega, hall, .inr ⟨hlast, index, hread, rfl⟩⟩, hpair⟩
    · rintro ⟨⟨premises, conclusion⟩, ⟨-, hpremises, hconclusion⟩, rfl⟩
      refine ⟨premises, mapM_returns (hpremises.imp fun _ _ h => readIndex_eq_ok.mpr h),
        conclusion.toFinset, readConsequence_eq_ok.mpr ?_, rfl⟩
      refine hconclusion.imp ?_ ?_
      · rintro ⟨hlast, rfl⟩
        exact ⟨hlast, rfl⟩
      · rintro ⟨hlast, index, hread, rfl⟩
        exact ⟨hlast, index, hread, rfl⟩

/-! ## Reading the file -/

theorem readHornLoop_eq_ok {lines : List (List Char)} {constraints : List (Finset ℕ × Finset ℕ)} :
    readHornLoop filename lineNr lines = .ok constraints ↔
      List.Forall₂ (fun line constraint => ∃ clause, LineReads line clause ∧
        constraint = clauseIndexes clause) (lines.filter fun line => !isSkipped line)
          constraints := by
  induction lines generalizing lineNr constraints with
  | nil =>
    rw [readHornLoop, Except.ok.injEq, List.filter_nil, List.forall₂_nil_left_iff, eq_comm]
  | cons line lines ih =>
    rw [readHornLoop]
    split_ifs with hskip
    · rw [List.filter_cons_of_neg (by rw [hskip]; decide)]
      exact ih
    · rw [List.filter_cons_of_pos (by simpa using hskip), List.forall₂_cons_left_iff]
      simp only [bind_ok]
      constructor
      · rintro ⟨constraint, hline, rest, hrest, hpure⟩
        exact ⟨constraint, rest, readHornLine_eq_ok.mp hline, ih.mp hrest,
          (Except.ok.inj hpure).symm⟩
      · rintro ⟨constraint, rest, hline, hrest, rfl⟩
        exact ⟨constraint, readHornLine_eq_ok.mpr hline, rest, ih.mpr hrest, rfl⟩

/-! ## Constraints -/

theorem pointer_eq_ok {i index : ℕ} {x : Ptr} :
    pointer size i index = .ok x ↔ index < size ∧ x = .point index := by
  unfold pointer
  split_ifs with h
  · refine iff_of_false (fun h => by cases h) ?_
    rintro ⟨hlt, -⟩
    omega
  · rw [Except.ok.injEq, eq_comm]
    exact ⟨fun hx => ⟨by omega, hx⟩, fun hx => hx.2⟩

/-- An accepted constraint has only existing data points. -/
theorem hornConstraint_bounds {i : ℕ} {clause : List ℕ × Option ℕ} {hc : HornConstraint}
    (h : hornConstraint size i (clauseIndexes clause) = .ok hc) :
    (∀ j ∈ clause.1, j < size) ∧ ∀ j ∈ clause.2, j < size := by
  obtain ⟨premises, conclusion⟩ := clause
  obtain ⟨pointers, hpointers, h⟩ := bind_ok.mp h
  constructor
  · intro j hj
    have hmem : j ∈ (clauseIndexes (premises, conclusion)).1.sort :=
      (Finset.mem_sort _).mpr (List.mem_toFinset.mpr hj)
    obtain ⟨x, -, hx⟩ := forall₂_mem_right (List.Forall₂.flip (mapM_ok hpointers)) hmem
    exact (pointer_eq_ok.mp hx).1
  · rintro index rfl
    rw [clauseIndexes, Option.toFinset_some, Finset.sort_singleton, List.head?_cons] at h
    obtain ⟨x, hx, -⟩ := bind_ok.mp h
    exact (pointer_eq_ok.mp hx).1

/-- The line is accepted, and the constraint is the one of its clause. -/
def Accepts (size : ℕ) (line : List Char) (hc : HornConstraint) : Prop :=
  ∃ clause, LineReads line clause ∧ (∀ j ∈ clause.1, j < size) ∧ (∀ j ∈ clause.2, j < size) ∧
    Transfers clause hc

theorem accepts_of_hornConstraint {i : ℕ} {clause : List ℕ × Option ℕ} {hc : HornConstraint}
    (hline : LineReads line clause) (h : hornConstraint size i (clauseIndexes clause) = .ok hc) :
    Accepts size line hc := by
  obtain ⟨hlhs, hrhs⟩ := hornConstraint_bounds h
  obtain ⟨hc', hrun, htransfers⟩ := hornConstraint_clauseIndexes (i := i) hlhs hrhs
  obtain rfl := Except.ok.inj (h.symm.trans hrun)
  exact ⟨clause, hline, hlhs, hrhs, htransfers⟩

/-- The constraints of lines; `k` is the number of the first one. -/
theorem accepts_of_mapM {lines : List (List Char)} {pairs : List (Finset ℕ × Finset ℕ)}
    (hlines : List.Forall₂ (fun line constraint => ∃ clause, LineReads line clause ∧
      constraint = clauseIndexes clause) lines pairs) :
    ∀ {k : ℕ} {constraints : List HornConstraint},
      ((pairs.zipIdx k).mapM fun x => hornConstraint size x.2 x.1) = .ok constraints →
      List.Forall₂ (Accepts size) lines constraints := by
  induction hlines with
  | nil =>
    intro k constraints h
    rw [← Except.ok.inj h]
    exact .nil
  | cons hline _ ih =>
    intro k constraints h
    obtain ⟨clause, hclause, rfl⟩ := hline
    rw [List.zipIdx_cons] at h
    obtain ⟨hc, hcs, hhc, hrest, rfl⟩ := List.forall₂_cons_left_iff.mp (mapM_ok h)
    exact .cons (accepts_of_hornConstraint hclause hhc) (ih (mapM_returns hrest))

/-- The constraints of an accepted file. -/
theorem readHornConstraints_ok {content : List Char} {constraints : List HornConstraint}
    (h : readHornConstraints filename content size = .ok constraints) :
    List.Forall₂ (Accepts size) (hornLines content) constraints := by
  obtain ⟨indexes, hread, h⟩ := bind_ok.mp h
  exact accepts_of_mapM (readHornLoop_eq_ok.mp hread) h

/-- A file all of whose lines are acceptable is accepted. -/
theorem readHornConstraints_returns {content : List Char}
    (h : ∀ line ∈ hornLines content, ∃ hc, Accepts size line hc) :
    ∃ constraints, readHornConstraints filename content size = .ok constraints := by
  choose! hc clause hline hlhs hrhs htransfers using h
  have hread : readHornFile filename content =
      .ok (((hornLines content).map clause).map clauseIndexes) := by
    rw [readHornFile, readHornLoop_eq_ok, List.map_map, List.forall₂_map_right_iff, ← hornLines,
      List.forall₂_same]
    exact fun line hmem => ⟨clause line, hline line hmem, rfl⟩
  obtain ⟨constraints, hrun, -⟩ := @indexes2hornConstraints_clauseIndexes size
    ((hornLines content).map clause) (by
      rw [List.forall_mem_map]
      exact fun line hmem => ⟨hlhs line hmem, hrhs line hmem⟩)
  exact ⟨constraints, bind_ok.mpr ⟨_, hread, hrun⟩⟩

/-! ## Errors -/

/-- `boogie_io_error` is a `std::runtime_error`. -/
def IsRuntimeError (e : Error) : Prop := ∃ what, e = .runtimeError what

theorem boogieIoError_isRuntimeError (text : String) :
    IsRuntimeError (boogieIoError text lineNr filename) :=
  ⟨_, rfl⟩

theorem readIndex_throws : Ensures IsRuntimeError (fun _ => True)
    (readIndex filename lineNr item) := by
  unfold readIndex
  split
  · exact boogieIoError_isRuntimeError _
  · trivial

theorem readHornLine_throws : Ensures IsRuntimeError (fun _ => True)
    (readHornLine filename lineNr line) := by
  unfold readHornLine
  dsimp only
  split_ifs
  · exact boogieIoError_isRuntimeError _
  · refine (ensures_mapM fun _ _ => readIndex_throws).bind fun premises _ => ?_
    refine Ensures.bind (Q := fun _ => True) ?_ fun _ _ => trivial
    unfold readConsequence
    split_ifs
    · exact readIndex_throws.bind fun _ _ => trivial
    · trivial

theorem readHornLoop_throws {lines : List (List Char)} :
    Ensures IsRuntimeError (fun _ => True) (readHornLoop filename lineNr lines) := by
  induction lines generalizing lineNr with
  | nil => trivial
  | cons line lines ih =>
    rw [readHornLoop]
    split_ifs
    · exact ih
    · exact readHornLine_throws.bind fun _ _ => ih.bind fun _ _ => trivial

theorem hornConstraint_throws {i : ℕ} {hornPair : Finset ℕ × Finset ℕ} :
    Ensures IsRuntimeError (fun _ => True) (hornConstraint size i hornPair) := by
  have hpointer : ∀ index, Ensures IsRuntimeError (fun _ => True) (pointer size i index) := by
    intro index
    unfold pointer
    split_ifs
    · exact ⟨_, rfl⟩
    · trivial
  refine (ensures_mapM fun index _ => hpointer index).bind fun premises _ => ?_
  split
  · trivial
  · exact (hpointer _).bind fun _ _ => trivial

/-- A file that is not accepted is rejected with a `boogie_io_error`. -/
theorem readHornConstraints_throws {content : List Char} :
    Ensures IsRuntimeError (fun _ => True) (readHornConstraints filename content size) :=
  readHornLoop_throws.bind fun _ _ =>
    (ensures_mapM fun _ _ => hornConstraint_throws).imp fun _ _ => trivial

/-! ## When the check is exact -/

/-- The line has fewer than two items, an item is not a number with 64 bits, or an index that
    is stored is too large. -/
def Rejected (size : ℕ) (line : List Char) : Prop :=
  (getlines ',' line).length < 2 ∨ ∃ item ∈ indexItems line, ∀ z, integer item = some z →
    2 ^ 64 ≤ z.natAbs ∨ (size : ℤ) ≤ z % 2 ^ 32

theorem exists_readsAs (h : ¬ ∀ z, integer item = some z → 2 ^ 64 ≤ z.natAbs ∨
    (size : ℤ) ≤ z % 2 ^ 32) :
    ∃ index < size, ReadsAs item index := by
  push Not at h
  obtain ⟨z, hz, hbound, hlt⟩ := h
  obtain ⟨index, hindex⟩ := Int.eq_ofNat_of_zero_le (Int.emod_nonneg z (b := 2 ^ 32) (by norm_num))
  rw [hindex] at hlt
  exact ⟨index, by exact_mod_cast hlt, z, hz, hbound, hindex.symm⟩

/-- The items of an accepted line. -/
theorem Accepts.reads {hc : HornConstraint} (h : Accepts size line hc) :
    ∀ item ∈ indexItems line, ∃ index < size, ReadsAs item index := by
  obtain ⟨clause, hline, hlhs, hrhs, -⟩ := h
  intro item hitem
  rcases List.mem_append.mp hitem with hitem | hitem
  · obtain ⟨index, hindex, hread⟩ := forall₂_mem_right hline.premises.flip hitem
    exact ⟨index, hlhs index hindex, hread⟩
  · rcases hline.conclusion with ⟨hlast, -⟩ | ⟨hlast, index, hread, hclause⟩
    · rw [if_pos hlast] at hitem
      cases hitem
    · rw [if_neg hlast] at hitem
      rw [List.mem_singleton.mp hitem]
      exact ⟨index, hrhs index hclause, hread⟩

/-- The lines that are accepted. -/
theorem accepts_iff : (∃ hc, Accepts size line hc) ↔ ¬ Rejected size line := by
  constructor
  · rintro ⟨hc, hline⟩ (hformat | ⟨item, hitem, hbad⟩)
    · obtain ⟨clause, hreads, -⟩ := hline
      have h := hreads.format
      omega
    · obtain ⟨index, hlt, z, hz, hbound, hindex⟩ := hline.reads item hitem
      rcases hbad z hz with hlarge | hlarge
      · omega
      · rw [← hindex] at hlarge
        omega
  · intro h
    unfold Rejected at h
    push Not at h
    obtain ⟨hformat, hitems⟩ := h
    have hreads : ∀ item ∈ indexItems line, ∃ index < size, ReadsAs item index := by
      intro item hitem
      refine exists_readsAs fun hbad => ?_
      obtain ⟨z, hz, hsmall, hlt⟩ := hitems item hitem
      rcases hbad z hz with hlarge | hlarge
      · omega
      · omega
    choose! index hlt hread using hreads
    have hpremise : ∀ item ∈ premiseItems line, item ∈ indexItems line :=
      fun item hitem => List.mem_append_left _ hitem
    have hlhs : ∀ j ∈ (premiseItems line).map index, j < size := by
      rw [List.forall_mem_map]
      exact fun item hitem => hlt item (hpremise item hitem)
    have hpremises : List.Forall₂ ReadsAs (premiseItems line) ((premiseItems line).map index) := by
      rw [List.forall₂_map_right_iff, List.forall₂_same]
      exact fun item hitem => hread item (hpremise item hitem)
    by_cases hlast : headItem line = ['_']
    · have hrhs : ∀ j ∈ (none : Option ℕ), j < size := fun j hj => by cases hj
      obtain ⟨hc, -, htransfers⟩ := @hornConstraint_clauseIndexes size 0 (_, none) hlhs hrhs
      exact ⟨hc, _, ⟨hformat, hpremises, .inl ⟨hlast, rfl⟩⟩, hlhs, hrhs, htransfers⟩
    · have hmem : headItem line ∈ indexItems line := by
        rw [indexItems, if_neg hlast]
        exact List.mem_append_right _ (List.mem_singleton_self _)
      have hrhs : ∀ j ∈ some (index (headItem line)), j < size := by
        intro j hj
        rw [← Option.some.inj hj]
        exact hlt _ hmem
      obtain ⟨hc, -, htransfers⟩ := @hornConstraint_clauseIndexes size 0 (_, some _) hlhs hrhs
      exact ⟨hc, _, ⟨hformat, hpremises, .inr ⟨hlast, _, hread _ hmem, rfl⟩⟩, hlhs, hrhs,
        htransfers⟩

/-- All written indices are unsigned 32-bit numbers. -/
def SmallIndices (line : List Char) : Prop :=
  ∀ item ∈ indexItems line, ∀ z, integer item = some z → 0 ≤ z ∧ z < 2 ^ 32

theorem ReadsAs.integer_eq {index : ℕ} (h : ReadsAs item index)
    (hsmall : ∀ z, integer item = some z → 0 ≤ z ∧ z < 2 ^ 32) :
    integer item = some (index : ℤ) := by
  obtain ⟨z, hz, -, hindex⟩ := h
  obtain ⟨hlow, hhigh⟩ := hsmall z hz
  rw [hz, hindex, Int.emod_eq_of_lt hlow hhigh]

/-- Small indices are the data points of an accepted line. -/
theorem Accepts.refers {hc : HornConstraint} (h : Accepts size line hc)
    (hsmall : SmallIndices line) :
    Refers size line hc := by
  have hpremise : ∀ item ∈ premiseItems line, item ∈ indexItems line :=
    fun item hitem => List.mem_append_left _ hitem
  have hbounds : ∀ item ∈ indexItems line, ∃ i < size, integer item = some (i : ℤ) := by
    intro item hitem
    obtain ⟨index, hlt, hread⟩ := h.reads item hitem
    exact ⟨index, hlt, hread.integer_eq (hsmall item hitem)⟩
  obtain ⟨clause, hline, hlhs, hrhs, htransfers⟩ := h
  refine ⟨hbounds, fun x => ?_, fun x => ?_⟩
  · rw [htransfers.premises]
    constructor
    · rintro ⟨i, hi, rfl⟩
      obtain ⟨item, hitem, hread⟩ := forall₂_mem_right hline.premises hi
      exact ⟨item, hitem, i, ReadsAs.integer_eq hread (hsmall item (hpremise item hitem)), rfl⟩
    · rintro ⟨item, hitem, i, hi, rfl⟩
      obtain ⟨index, hindex, hread⟩ := forall₂_mem_right hline.premises.flip hitem
      have hint := ReadsAs.integer_eq hread (hsmall item (hpremise item hitem))
      rw [hi, Option.some.injEq, Nat.cast_inj] at hint
      exact ⟨index, hindex, by rw [hint]⟩
  · rw [htransfers.conclusion]
    rcases hline.conclusion with ⟨hlast, hclause⟩ | ⟨hlast, index, hread, hclause⟩
    · rw [hclause]
      refine iff_of_false (fun hx => by cases hx) ?_
      exact fun hx => hx.1 hlast
    · have hmem : headItem line ∈ indexItems line := by
        rw [indexItems, if_neg hlast]
        exact List.mem_append_right _ (List.mem_singleton_self _)
      have hint := hread.integer_eq (hsmall _ hmem)
      rw [hclause, Option.map_some, Option.some.injEq]
      constructor
      · rintro rfl
        exact ⟨hlast, index, hint, rfl⟩
      · rintro ⟨-, i, hi, rfl⟩
        rw [hi, Option.some.injEq, Nat.cast_inj] at hint
        rw [hint]

/-- If an accepted line refers to the written numbers, they are small: the data points of the
    constraint have small indices. -/
theorem Accepts.smallIndices {hc : HornConstraint} (h : Accepts size line hc)
    (hrefers : Refers size line hc) : SmallIndices line := by
  obtain ⟨clause, hline, -, -, htransfers⟩ := h
  intro item hitem z hz
  obtain ⟨i, -, hi⟩ := hrefers.bounds item hitem
  obtain rfl := Option.some.inj (hz.symm.trans hi)
  suffices hlt : i < 2 ^ 32 from ⟨Int.natCast_nonneg i, by exact_mod_cast hlt⟩
  rcases List.mem_append.mp hitem with hitem | hitem
  · have hx := (hrefers.premises (.point i)).mpr ⟨item, hitem, i, hi, rfl⟩
    obtain ⟨j, hj, hij⟩ := (htransfers.premises _).mp hx
    obtain ⟨_, -, hread⟩ := forall₂_mem_right hline.premises hj
    rw [Ptr.point.inj hij]
    exact hread.lt
  · rcases hline.conclusion with ⟨hlast, -⟩ | ⟨hlast, index, hread, hclause⟩
    · rw [if_pos hlast] at hitem
      cases hitem
    · rw [if_neg hlast] at hitem
      obtain rfl := List.mem_singleton.mp hitem
      have hx := (hrefers.conclusion (.point i)).mpr ⟨hlast, i, hi, rfl⟩
      rw [htransfers.conclusion, hclause, Option.map_some, Option.some.injEq] at hx
      rw [← Ptr.point.inj hx]
      exact hread.lt

/-- The check of the indices is exact iff all written indices are unsigned 32-bit numbers, or
    some line is rejected anyway. -/
theorem indicesChecked_iff (filename : String) (content : List Char) (size : ℕ) :
    IndicesChecked filename content size ↔
      (∀ line ∈ hornLines content, SmallIndices line) ∨ ∃ line ∈ hornLines content,
        Rejected size line := by
  constructor
  · rintro ⟨hchecked, -⟩
    by_contra hnot
    push Not at hnot
    obtain ⟨⟨line, hline, hlarge⟩, haccepted⟩ := hnot
    obtain ⟨constraints, hrun⟩ := @readHornConstraints_returns filename size content
      fun line hline => accepts_iff.mpr (haccepted line hline)
    obtain ⟨hlen, haccepts⟩ := List.forall₂_iff_zip.mp (readHornConstraints_ok hrun)
    obtain ⟨-, hrefers⟩ := List.forall₂_iff_zip.mp (hchecked constraints hrun)
    have hboth : List.Forall₂ (fun line hc => Accepts size line hc ∧ Refers size line hc)
        (hornLines content) constraints :=
      List.forall₂_iff_zip.mpr ⟨hlen, fun hmem => ⟨haccepts hmem, hrefers hmem⟩⟩
    obtain ⟨hc, -, hacc, href⟩ := forall₂_mem_right (List.Forall₂.flip hboth) hline
    exact hlarge (hacc.smallIndices href)
  · intro h
    have hok : ∀ constraints, readHornConstraints filename content size = .ok constraints →
        List.Forall₂ (Refers size) (hornLines content) constraints := by
      intro constraints hrun
      have haccepts := readHornConstraints_ok hrun
      rcases h with hsmall | ⟨line, hline, hrejected⟩
      · obtain ⟨hlen, haccepts⟩ := List.forall₂_iff_zip.mp haccepts
        refine List.forall₂_iff_zip.mpr ⟨hlen, fun {line hc} hmem => ?_⟩
        exact (haccepts hmem).refers (hsmall line (List.of_mem_zip hmem).1)
      · obtain ⟨hc, -, hacc⟩ := forall₂_mem_right (List.Forall₂.flip haccepts) hline
        exact absurd hrejected (accepts_iff.mp ⟨hc, hacc⟩)
    refine ⟨hok, ?_⟩
    rintro ⟨line, hline, item, hitem, z, hz, hout⟩
    cases hrun : readHornConstraints filename content size with
    | error e =>
      obtain ⟨what, rfl⟩ := (ensures_iff.mp readHornConstraints_throws).2 e hrun
      exact ⟨what, rfl⟩
    | ok constraints =>
      obtain ⟨hc, -, hrefers⟩ := forall₂_mem_right (List.Forall₂.flip (hok constraints hrun)) hline
      obtain ⟨i, hlt, hi⟩ := hrefers.bounds item hitem
      obtain rfl := Option.some.inj (hz.symm.trans hi)
      exact absurd ⟨Int.natCast_nonneg i, by exact_mod_cast hlt⟩ hout

/-- The index 4294967296 is accepted as the index 0. -/
theorem indices_wrap : ¬ IndicesChecked "" "4294967296,_\n".toList 1 := by
  rintro ⟨hchecked, -⟩
  have hrun : readHornConstraints "" "4294967296,_\n".toList 1 =
      .ok [{ premises := [.point 0], conclusion := none }] := by decide +kernel
  obtain ⟨hrefers, -⟩ := List.forall₂_cons.mp (hchecked _ hrun)
  obtain ⟨i, hlt, hi⟩ := hrefers.bounds "4294967296".toList (by decide)
  have hvalue : integer "4294967296".toList = some 4294967296 := by decide
  rw [hvalue, Option.some.injEq] at hi
  omega

end HiceDt.Boogie
