import HiceDt.Boogie.Translation
import HiceDt.Boogie.Files
import HiceDt.Horndini.Unsigned

/-!
# The intervals file

The intervals of the attributes of each function: `GenerateIntervalsFile` writes them
(`Boogie/Source/Houdini/MLHoudini.cs`, lines 524–582), and `read_intervals_file` reads them
(`hice-dt/src/boogie_io.cpp`, lines 554–618). Both bounds are inclusive. The teacher has them
as numbers of type `int`, where an empty interval ends before its first attribute, and the
learner as numbers of type `unsigned`.

Results:

* `readIntervalsFile_writeIntervalsFile`: the intervals that are read back.
* `isPosition_iff`: the positions of the attributes of a function.
* `intervalsAgree_iff`: when the intervals and the conjunctions of the pre-phase are those of
  the functions.
-/

namespace HiceDt.Boogie

open Loop Text Dictionary Machine
open Horndini (halfOpen generateDerivedPredicates intervalPredicates attributePredicates
  DerivedPredicate derivedIntervals predicateAt generateDerivedPredicatesAndIntervals
  initialConjunctions unsignedIntervals debugAssertions)

/-! ## Writing the files -/

/-- `StringBuilder.MaxCapacity`. -/
def maxCapacity : ℕ := 2147483647

/-- The content of a `StringBuilder` to which lines are appended. -/
def appendLines (lines : List (List Char)) : Except Error (List Char) :=
  let fileContent := lines.flatMap fun line => line ++ ['\n']
  if fileContent.length ≤ maxCapacity then .ok fileContent
  else .error (.runtimeError "ArgumentOutOfRangeException")

/-- The lines of the attributes file. -/
def Attributes.lines (file : Attributes) : List (List Char) :=
  ("cat,".toList ++ attributeNameOfExistentialFunctions.toList ++ ',' :: decimal file.categories) ::
    file.intAttributes.map fun att => "int,".toList ++ att.2.toList

/-- `GenerateAttributesFile` with the text of the file, which is written in the loop over the
    functions. -/
def writeAttributesFile (functions : List Function) :
    Except Error (Attributes × Option (List Char)) := do
  let file ← generateAttributesFile functions
  let fileContent ← appendLines file.lines
  return (file, if functions = [] then none else some (fileContent ++ ['\n']))

/-- The line for the bounds of an interval. -/
def intervalLine (left right : ℤ) : List Char := decimalInt left ++ ',' :: decimalInt right

/-- The loop of `GenerateIntervalsFile` (lines 534–574). -/
def intervalLines : List Function → ℤ → Except Error (List (List Char))
  | [], _ => .ok []
  | f :: functions, left => do
    let numParameters ← numParameters f
    let right := wrap32 (wrap32 (left + wrap32 numParameters) - 1)
    let rest ← intervalLines functions (wrap32 (right + 1))
    return intervalLine left right :: rest

/-- `GenerateIntervalsFile`, the text of the file. -/
def writeIntervalsFile (functions : List Function) : Except Error (List Char) := do
  let lines ← intervalLines functions 0
  let fileContent ← appendLines lines
  return fileContent ++ ['\n']

/-! ## `read_intervals_file` -/

/-- A bound of an interval. -/
def readBound (filename : String) (lineNr : ℕ) (side : String) (item : List Char) :
    Except Error ℕ :=
  match readUnsigned 32 item with
  | none => .error (boogieIoError ("Unable to parse " ++ side ++ " interval bound") lineNr filename)
  | some value => .ok value

/-- The loop body of `read_intervals_file`. -/
def readIntervalsLine (filename : String) (lineNr : ℕ) (line : List Char) : Except Error (ℕ × ℕ) :=
  match getlines ',' line with
  | [first, second] => do
    let left ← readBound filename lineNr "left" first
    let right ← readBound filename lineNr "right" second
    return (left, right)
  | _ => .error (boogieIoError "Unable to parse interval" lineNr filename)

/-- The loop over the lines. -/
def readIntervalsLoop (filename : String) : ℕ → List (List Char) → Except Error (List (ℕ × ℕ))
  | _, [] => .ok []
  | lineNr, line :: lines =>
    if isSkipped line then readIntervalsLoop filename (lineNr + 1) lines
    else do
      let interval ← readIntervalsLine filename (lineNr + 1) line
      let intervals ← readIntervalsLoop filename (lineNr + 1) lines
      return interval :: intervals

/-- `read_intervals_file` on a file with the given content. -/
def readIntervalsFile (filename : String) (content : List Char) : Except Error (List (ℕ × ℕ)) :=
  readIntervalsLoop filename 0 (getlines '\n' content)

/-! ## What is written -/

variable {functions : List Function} {f : Function} {file : Attributes} {filename : String}

theorem appendLines_ok {lines : List (List Char)} {fileContent : List Char}
    (h : appendLines lines = .ok fileContent) :
    fileContent = lines.flatMap (fun line => line ++ ['\n']) ∧
      fileContent.length ≤ maxCapacity := by
  unfold appendLines at h
  dsimp only at h
  split_ifs at h with hle
  rw [← Except.ok.inj h]
  exact ⟨rfl, hle⟩

/-- No name of an attribute is empty. -/
theorem declared_name_pos {att : String × Expr} (h : att ∈ f.declared) :
    0 < att.1.toList.length := by
  have hdelim : 0 < attributeDelimiter.toList.length := by decide
  rcases List.mem_append.mp h with h | h
  · obtain ⟨x, _, rfl⟩ := List.mem_map.mp h
    simp only [attributeName, String.toList_append, List.length_append]
    omega
  · obtain ⟨x, _, h⟩ := List.mem_flatMap.mp h
    unfold derivedAttributes at h
    split_ifs at h
    · rcases List.mem_pair.mp h with rfl | rfl
      · simp only [derivedName, String.toList_append, List.length_append]
        omega
      · simp only [derivedName, String.toList_append, List.length_append]
        omega
    · cases h

theorem intAttributes_eq (hfile : generateAttributesFile functions = .ok file) :
    file.intAttributes = functions.flatMap fun g => g.declared.map fun att => (g.name, att.1) := by
  rw [Attributes.intAttributes, attribute2Expr_eq hfile, List.flatMap_map]

theorem length_intAttributes (hfile : generateAttributesFile functions = .ok file) :
    file.intAttributes.length = offset functions := by
  rw [intAttributes_eq hfile, offset, List.length_flatMap, List.length_flatMap]
  refine congrArg List.sum (List.map_congr_left fun g _ => ?_)
  exact List.length_map _

/-- The lines of the attributes have more than five characters. -/
theorem length_attributeLines {atts : List (String × String)}
    (h : ∀ att ∈ atts, 0 < att.2.toList.length) :
    6 * atts.length ≤ ((atts.map fun att => "int,".toList ++ att.2.toList).flatMap
      fun line => line ++ ['\n']).length := by
  induction atts with
  | nil => exact le_refl 0
  | cons att atts ih =>
    have hint : "int,".toList.length = 4 := by decide
    have hpos := h att List.mem_cons_self
    have hrest := ih fun att' hatt' => h att' (List.mem_cons_of_mem _ hatt')
    rw [List.map_cons, List.flatMap_cons, List.length_append, List.length_append,
      List.length_append, List.length_cons, List.length_singleton, hint]
    omega

/-- There are not many attributes in a file that can be written. -/
theorem offset_le {text : Option (List Char)}
    (h : writeAttributesFile functions = .ok (file, text)) :
    generateAttributesFile functions = .ok file ∧ 6 * offset functions ≤ maxCapacity := by
  obtain ⟨file', hfile, h⟩ := bind_ok.mp h
  obtain ⟨fileContent, hcontent, h⟩ := bind_ok.mp h
  obtain ⟨rfl, -⟩ := Prod.mk.inj (Except.ok.inj h)
  obtain ⟨rfl, hle⟩ := appendLines_ok hcontent
  refine ⟨hfile, ?_⟩
  have hpos : ∀ att ∈ file'.intAttributes, 0 < att.2.toList.length := by
    rw [intAttributes_eq hfile]
    intro att hatt
    obtain ⟨g, _, hatt⟩ := List.mem_flatMap.mp hatt
    obtain ⟨att', hatt', rfl⟩ := List.mem_map.mp hatt
    exact declared_name_pos hatt'
  have hlines := length_attributeLines hpos
  rw [Attributes.lines, List.flatMap_cons, List.length_append] at hle
  rw [← length_intAttributes hfile]
  omega

/-! ## What is read back -/

/-- The intervals of functions as the learner has them; `n` counts the attributes. -/
def learnerIntervals : List Function → ℕ → List (ℕ × ℕ)
  | [], _ => []
  | f :: functions, n =>
    (n, (n + f.declared.length + (2 ^ 32 - 1)) % 2 ^ 32) ::
      learnerIntervals functions (n + f.declared.length)

/-- A line stands for an interval. -/
structure StandsForInterval (line : List Char) (interval : ℕ × ℕ) : Prop where
  newline : '\n' ∉ line
  notSkipped : isSkipped line = false
  read : ∀ filename lineNr, readIntervalsLine filename lineNr line = .ok interval

theorem intervalLine_standsFor {left right : ℤ} {interval : ℕ × ℕ} (hleft : left.natAbs < 2 ^ 32)
    (hright : right.natAbs < 2 ^ 32) (hfst : (interval.1 : ℤ) = left % 2 ^ 32)
    (hsnd : (interval.2 : ℤ) = right % 2 ^ 32) :
    StandsForInterval (intervalLine left right) interval := by
  obtain ⟨c, cs, hc, hdigit⟩ := decimalInt_cons left
  obtain ⟨c', cs', hc', -⟩ := decimalInt_cons right
  refine ⟨fun hmem => ?_, ?_, fun filename lineNr => ?_⟩
  · rcases List.mem_append.mp hmem with hmem | hmem
    · exact not_mem_decimalInt rfl (by decide) hmem
    · rcases List.mem_cons.mp hmem with hmem | hmem
      · exact absurd hmem (by decide)
      · exact not_mem_decimalInt rfl (by decide) hmem
  · have hhash : c ≠ '#' := by
      rcases hdigit with hdigit | rfl
      · exact ne_of_isDigit hdigit rfl
      · decide
    rw [intervalLine, hc]
    simp [isSkipped, hhash]
  · have hne : decimalInt right ≠ [] := by
      rw [hc']
      exact List.cons_ne_nil _ _
    have hsplit : getlines ',' (intervalLine left right) = [decimalInt left, decimalInt right] := by
      rw [intervalLine, getlines_cons (not_mem_decimalInt rfl (by decide)),
        getlines_last (not_mem_decimalInt rfl (by decide)) hne]
    rw [readIntervalsLine, hsplit]
    simp only [readBound, readUnsigned_decimalInt hleft hfst, readUnsigned_decimalInt hright hsnd,
      bind, Except.bind]
    rfl

theorem offset_cons (f : Function) (functions : List Function) :
    offset (f :: functions) = f.declared.length + offset functions := by
  rw [offset, offset, List.flatMap_cons, List.length_append]

/-- The lines stand for the intervals of the functions; no number of type `int` overflows. -/
theorem intervalLines_standFor (functions : List Function)
    (htypes : ∀ g ∈ functions, ∀ p ∈ g.inParams, p.type = .bool ∨ p.type = .int) {n : ℕ}
    (hbound : n + offset functions ≤ maxCapacity) :
    ∃ lines, intervalLines functions n = .ok lines ∧
      List.Forall₂ StandsForInterval lines (learnerIntervals functions n) := by
  induction functions generalizing n with
  | nil => exact ⟨[], rfl, .nil⟩
  | cons f functions ih =>
    rw [offset_cons] at hbound
    obtain ⟨lines, hlines, hall⟩ := ih (fun g hg => htypes g (List.mem_cons_of_mem _ hg))
      (n := n + f.declared.length) (by omega)
    have hint : ∀ z : ℤ, -1 ≤ z → z ≤ n + f.declared.length → wrap32 z = z := by
      intro z hlow hhigh
      rw [maxCapacity] at hbound
      rw [wrap32_eq_iff]
      constructor
      · norm_num
        omega
      · norm_num
        omega
    have hright : wrap32 (wrap32 ((n : ℤ) + wrap32 (f.declared.length : ℕ)) - 1) =
        (n : ℤ) + f.declared.length - 1 := by
      rw [hint (f.declared.length : ℕ) (by omega) (by omega),
        hint (n + f.declared.length) (by omega) (by omega), hint _ (by omega) (by omega)]
    have hleft : wrap32 ((n : ℤ) + f.declared.length - 1 + 1) =
        ((n + f.declared.length : ℕ) : ℤ) := by
      rw [hint _ (by omega) (by omega)]
      push_cast
      ring
    refine ⟨intervalLine n ((n : ℤ) + f.declared.length - 1) :: lines, ?_, .cons ?_ hall⟩
    · rw [intervalLines, numParameters_eq (htypes f List.mem_cons_self)]
      simp only [bind, Except.bind, hright, hleft, hlines]
      rfl
    · rw [maxCapacity] at hbound
      refine intervalLine_standsFor (by omega) (by omega) ?_ ?_
      · rw [Int.emod_eq_of_lt (by omega) (by omega)]
      · dsimp only
        push_cast
        omega

theorem readIntervalsLoop_standFor {lines : List (List Char)} {intervals : List (ℕ × ℕ)}
    (h : List.Forall₂ StandsForInterval lines intervals) (lineNr : ℕ) :
    readIntervalsLoop filename lineNr (lines ++ [[]]) = .ok intervals := by
  induction h generalizing lineNr with
  | nil => rfl
  | cons hline _ ih =>
    rw [List.cons_append, readIntervalsLoop, hline.notSkipped, if_neg Bool.false_ne_true,
      hline.read, ih]
    rfl

/-- The intervals that the learner reads. -/
theorem readIntervalsFile_writeIntervalsFile {text : Option (List Char)} {content : List Char}
    (hattributes : writeAttributesFile functions = .ok (file, text))
    (hintervals : writeIntervalsFile functions = .ok content) (filename : String) :
    readIntervalsFile filename content = .ok (learnerIntervals functions 0) := by
  obtain ⟨hfile, hbound⟩ := offset_le hattributes
  obtain ⟨lines, hlines, hall⟩ := @intervalLines_standFor functions
    (fun g hg => generateAttributesFile_types hfile hg) 0 (by omega)
  obtain ⟨lines', hlines', hintervals⟩ := bind_ok.mp hintervals
  obtain rfl := Except.ok.inj (hlines.symm.trans hlines')
  obtain ⟨fileContent, hcontent, hret⟩ := bind_ok.mp hintervals
  obtain ⟨rfl, -⟩ := appendLines_ok hcontent
  have hnewline : ∀ line ∈ lines, '\n' ∉ line := by
    intro line hline
    obtain ⟨_, _, hstands⟩ := forall₂_mem_right (List.Forall₂.flip hall) hline
    exact hstands.newline
  rw [← Except.ok.inj hret, readIntervalsFile, getlines_flatMap hnewline]
  exact readIntervalsLoop_standFor hall 0

/-! ## Positions in the attributes file -/

/-- The attribute at the position is one of the function. -/
def IsPosition (file : Attributes) (f : Function) (attr : ℕ) : Prop :=
  ∃ name, file.intAttributes[attr]? = some (f.name, name)

variable {before after : List Function}

theorem length_declaredAttributes (functions : List Function) :
    (functions.flatMap fun g => g.declared.map fun att => (g.name, att.1)).length =
      offset functions := by
  rw [offset, List.length_flatMap, List.length_flatMap]
  exact congrArg List.sum (List.map_congr_left fun g _ => List.length_map _)

/-- The positions of the attributes of a function follow one another. -/
theorem isPosition_iff (hnd : ((before ++ f :: after).map Function.name).Nodup)
    (hfile : generateAttributesFile (before ++ f :: after) = .ok file) {attr : ℕ} :
    IsPosition file f attr ↔ InBlock before f attr := by
  obtain ⟨hbefore, hafter⟩ := @names_ne ⟨f.name, []⟩ f before after hnd rfl
  have hother : ∀ {fs : List Function} {i : ℕ} {name : String}, (∀ g ∈ fs, g.name ≠ f.name) →
      (fs.flatMap fun g => g.declared.map fun att => (g.name, att.1))[i]? ≠ some
      (f.name, name) := by
    intro fs i name hne hget
    obtain ⟨g, hg, hmem⟩ := List.mem_flatMap.mp (List.mem_of_getElem? hget)
    obtain ⟨att, _, heq⟩ := List.mem_map.mp hmem
    exact hne g hg (Prod.mk.inj heq).1
  have hlen := length_declaredAttributes before
  have hown : (f.declared.map fun att => (f.name, att.1)).length = f.declared.length :=
    List.length_map _
  unfold IsPosition InBlock
  rw [intAttributes_eq hfile, List.flatMap_append, List.flatMap_cons]
  constructor
  · rintro ⟨name, hget⟩
    have hle : offset before ≤ attr := by
      by_contra hlt
      rw [List.getElem?_append_left (by omega)] at hget
      exact hother hbefore hget
    refine ⟨hle, ?_⟩
    by_contra hge
    rw [List.getElem?_append_right (by omega), List.getElem?_append_right (by omega)] at hget
    exact hother hafter hget
  · rintro ⟨hle, hlt⟩
    have hi : attr - offset before < f.declared.length := by omega
    refine ⟨f.declared[attr - offset before].1, ?_⟩
    rw [List.getElem?_append_right (by omega), hlen, List.getElem?_append_left (by omega),
      List.getElem?_map, List.getElem?_eq_getElem hi]
    rfl

/-! ## Half-open intervals -/

theorem intervalsLoop_cons {n : ℕ} {intervals : List (ℕ × ℕ)}
    (htypes : ∀ p ∈ f.inParams, p.type = .bool ∨ p.type = .int)
    (h : intervalsLoop (f :: functions) n = .ok intervals) :
    ∃ rest, intervalsLoop functions (n + f.declared.length) = .ok rest ∧
      intervals = (n, n + f.declared.length) :: rest := by
  obtain ⟨count, hcount, h⟩ := bind_ok.mp h
  obtain ⟨rest, hrest, hret⟩ := bind_ok.mp h
  rw [numParameters_eq htypes, Except.ok.injEq] at hcount
  subst hcount
  exact ⟨rest, hrest, (Except.ok.inj hret).symm⟩

/-- If there is an attribute before the end of the first interval, the learner has the
    intervals of `generateIntervalsFile`. -/
theorem learnerIntervals_halfOpen {n : ℕ} {intervals : List (ℕ × ℕ)}
    (htypes : ∀ g ∈ functions, ∀ p ∈ g.inParams, p.type = .bool ∨ p.type = .int)
    (h : intervalsLoop functions n = .ok intervals) (hbound : n + offset functions ≤ maxCapacity)
    (hpos : ∀ f ∈ functions.head?, 0 < n + f.declared.length) :
    (learnerIntervals functions n).map halfOpen = intervals := by
  induction functions generalizing n intervals with
  | nil => exact Except.ok.inj h
  | cons f functions ih =>
    rw [offset_cons] at hbound
    have hfirst := hpos f rfl
    obtain ⟨rest, hrest, rfl⟩ := intervalsLoop_cons (htypes f List.mem_cons_self) h
    have hnext : (n + f.declared.length + (2 ^ 32 - 1)) % 2 ^ 32 + 1 = n + f.declared.length := by
      rw [maxCapacity] at hbound
      omega
    rw [learnerIntervals, List.map_cons, halfOpen, hnext,
      ih (fun g hg => htypes g (List.mem_cons_of_mem _ hg)) hrest (by omega) fun _ _ => by omega]

/-- The number of derived predicates. -/
theorem length_generateDerivedPredicates {n : ℕ} {intervals : List (ℕ × ℕ)}
    (htypes : ∀ g ∈ functions, ∀ p ∈ g.inParams, p.type = .bool ∨ p.type = .int)
    (h : intervalsLoop functions n = .ok intervals) :
    (generateDerivedPredicates intervals 1).length = 9 * offset functions := by
  induction functions generalizing n intervals with
  | nil =>
    rw [← Except.ok.inj h]
    rfl
  | cons f functions ih =>
    obtain ⟨rest, hrest, rfl⟩ := intervalsLoop_cons (htypes f List.mem_cons_self) h
    have hinterval : (intervalPredicates 1 (n, n + f.declared.length)).length =
        9 * f.declared.length := by
      have hnine : ∀ attr, (attributePredicates 1 attr).length = 9 := fun _ => rfl
      simp [intervalPredicates, List.length_flatMap, hnine, Nat.mul_comm]
    rw [Horndini.length_generateDerivedPredicates_cons, hinterval,
      ih (fun g hg => htypes g (List.mem_cons_of_mem _ hg)) hrest, offset_cons]
    ring

/-! ## Agreement -/

/-- An inclusive interval has exactly the positions of the attributes of a function. -/
def Denotes (file : Attributes) (f : Function) (interval : ℕ × ℕ) : Prop :=
  ∀ attr, (interval.1 ≤ attr ∧ attr ≤ interval.2) ↔ IsPosition file f attr

/-- A conjunction has exactly the predicates over the attributes of a function. -/
structure Selects (file : Attributes) (predicates : List DerivedPredicate) (f : Function)
    (conjunction : List ℕ) : Prop where
  indices : ∀ c, c ∈ conjunction ↔ ∃ p, predicates[c]? = some p ∧ IsPosition file f p.index
  predicates : ∀ p, (∃ c ∈ conjunction, predicates[c]? = some p) ↔
    IsPosition file f p.index ∧ p ∈ attributePredicates 1 p.index

/-- The intervals in the file and the initial conjunctions of the pre-phase are those of the
    functions, the loops end, and the assertions hold whatever is removed from the
    conjunctions. -/
def IntervalsAgree (functions : List Function) (file : Attributes) (filename : String)
    (content : List Char) : Prop :=
  ∃ intervals, readIntervalsFile filename content = .ok intervals ∧
    List.Forall₂ (Denotes file) functions intervals ∧
    ∃ fuel predicates derived conjunctions,
      generateDerivedPredicatesAndIntervals intervals 1 fuel = .ok (predicates, derived) ∧
      initialConjunctions fuel derived = .ok conjunctions ∧
      List.Forall₂ (Selects file predicates) functions conjunctions ∧
      file.metadata.numberOfCategories = [derived.length] ∧
      ∀ X, Horndini.Sub X conjunctions → debugAssertions predicates intervals derived X = true

variable {intervals : List (ℕ × ℕ)}

theorem declared_pos (h : f.inParams ≠ []) : 0 < f.declared.length := by
  have hpos := List.length_pos_iff.mpr h
  rw [Function.declared, List.length_append, List.length_map, List.length_zipIdx]
  omega

/-- The half-open intervals of the functions. -/
structure AreBlocks (functions : List Function) (file : Attributes) (intervals : List (ℕ × ℕ)) :
    Prop where
  length : intervals.length = functions.length
  mem : ∀ i f, functions[i]? = some f → ∀ attr,
    ((intervals.getD i (0, 0)).1 ≤ attr ∧ attr < (intervals.getD i (0, 0)).2) ↔
    IsPosition file f attr

theorem areBlocks (hnd : (functions.map Function.name).Nodup)
    (hfile : generateAttributesFile functions = .ok file)
    (h : generateIntervalsFile functions = .ok intervals) : AreBlocks functions file intervals := by
  obtain ⟨hlen, hget⟩ := generateIntervalsFile_ok hfile h
  refine ⟨hlen, fun i f hi attr => ?_⟩
  obtain ⟨before, after, rfl, rfl⟩ := exists_split hi
  rw [hget before f after rfl, isPosition_iff hnd hfile]
  rfl

/-- An attribute has a position of only one function. -/
theorem IsPosition.unique (hnd : (functions.map Function.name).Nodup) {attr i j : ℕ}
    {f g : Function}
    (hi : functions[i]? = some f) (hj : functions[j]? = some g) (hf : IsPosition file f attr)
    (hg : IsPosition file g attr) : i = j := by
  obtain ⟨name, hname⟩ := hf
  obtain ⟨name', hname'⟩ := hg
  have heq : f.name = g.name := (Prod.mk.inj (Option.some.inj (hname.symm.trans hname'))).1
  have hlt : i < (functions.map Function.name).length := by
    rw [List.length_map]
    exact (List.getElem?_eq_some_iff.mp hi).1
  refine (List.getElem?_inj hlt hnd).mp ?_
  rw [List.getElem?_map, List.getElem?_map, hi, hj, Option.map_some, Option.map_some, heq]

/-- The conjunctions for the half-open intervals. -/
theorem AreBlocks.selects (h : AreBlocks functions file intervals)
    (hnd : (functions.map Function.name).Nodup) :
    List.Forall₂ (Selects file (generateDerivedPredicates intervals 1)) functions
      (derivedIntervals 1 intervals 0) := by
  have hlen := Horndini.derivedIntervals_length 1 intervals 0
  have hat : ∀ c p, (generateDerivedPredicates intervals 1)[c]? = some p ↔
      c < (generateDerivedPredicates intervals 1).length ∧
        predicateAt (generateDerivedPredicates intervals 1) c = p := by
    intro c p
    rw [List.getElem?_eq_some_iff, ← exists_prop]
    refine exists_congr fun hc => ?_
    rw [predicateAt, List.getD_eq_getElem _ _ hc]
  refine List.forall₂_iff_get.mpr ⟨by rw [hlen, h.length], fun i hi hi' => ?_⟩
  have hfunction : functions[i]? = some functions[i] := List.getElem?_eq_getElem hi
  have hconjunction : (derivedIntervals 1 intervals 0).getD i [] =
    (derivedIntervals 1 intervals 0)[i] := List.getD_eq_getElem _ _ hi'
  have hindex : ∀ {j c : ℕ} {g : Function}, functions[j]? = some g →
      c ∈ (derivedIntervals 1 intervals 0).getD j [] →
        IsPosition file g (predicateAt (generateDerivedPredicates intervals 1) c).index := by
    intro j c g hg hc
    exact (h.mem j g hg _).mp (Horndini.derivedIntervals_index 1 intervals [] j c hc)
  rw [List.get_eq_getElem, List.get_eq_getElem, ← hconjunction]
  refine ⟨fun c => ⟨fun hc => ?_, ?_⟩, fun p => ?_⟩
  · obtain ⟨-, hlt⟩ := Horndini.derivedIntervals_bounds 1 intervals hc
    exact ⟨_, (hat c _).mpr ⟨by omega, rfl⟩, hindex hfunction hc⟩
  · -- the predicate belongs to some function, and the attribute to only one
    rintro ⟨p, hp, hposition⟩
    obtain ⟨hlt, rfl⟩ := (hat c p).mp hp
    obtain ⟨j, hj, hmem⟩ := Horndini.exists_mem_derivedIntervals 1 intervals (Nat.zero_le c)
      (by omega)
    obtain ⟨g, hg⟩ : ∃ g, functions[j]? = some g := ⟨_, List.getElem?_eq_getElem (h.length ▸ hj)⟩
    rwa [IsPosition.unique hnd hfunction hg hposition (hindex hg hmem)]
  · have hmap := Horndini.derivedIntervals_map 1 intervals [] (i := i) (by rw [h.length]; exact hi)
    rw [List.nil_append, List.length_nil] at hmap
    rw [← h.mem i _ hfunction, ← Horndini.mem_intervalPredicates_iff, ← hmap, List.mem_map]
    refine exists_congr fun c => and_congr_right fun hc => ?_
    obtain ⟨-, hlt⟩ := Horndini.derivedIntervals_bounds 1 intervals hc
    rw [hat]
    exact and_iff_right (by omega)

/-! ## When the files agree -/

/-- The first function has a parameter, if there is a function. -/
def FirstHasParameter (functions : List Function) : Prop :=
  ∀ f ∈ functions.head?, f.inParams ≠ []

theorem intervalsAgree_of_first {text : Option (List Char)} {content : List Char}
    (hnd : (functions.map Function.name).Nodup)
    (hattributes : writeAttributesFile functions = .ok (file, text))
    (hintervals : writeIntervalsFile functions = .ok content)
    (hfirst : FirstHasParameter functions) : IntervalsAgree functions file filename content := by
  obtain ⟨hfile, hbound⟩ := offset_le hattributes
  have htypes := fun g (hg : g ∈ functions) => generateAttributesFile_types hfile hg
  obtain ⟨intervals, hloop, -⟩ := intervalsLoop_eq functions htypes 0
  have hblocks := areBlocks hnd hfile hloop
  have hpos : ∀ f ∈ functions.head?, 0 < 0 + f.declared.length := by
    intro f hf
    rw [Nat.zero_add]
    exact declared_pos (hfirst f hf)
  have hhalf := learnerIntervals_halfOpen htypes hloop (by omega) hpos
  have hcount := length_generateDerivedPredicates htypes hloop
  have hlength : (learnerIntervals functions 0).length = functions.length := by
    rw [← hblocks.length, ← hhalf, List.length_map]
  rw [maxCapacity] at hbound
  -- the last attribute of an interval is one of the attributes of the functions
  have hlast : ∀ interval ∈ learnerIntervals functions 0, interval.2 + 1 < 2 ^ 32 := by
    intro interval hmem
    have hmem' : halfOpen interval ∈ intervals := hhalf ▸ List.mem_map_of_mem hmem
    obtain ⟨i, hi, heq⟩ := List.getElem_of_mem hmem'
    obtain ⟨f, hf⟩ : ∃ f, functions[i]? = some f :=
      ⟨_, List.getElem?_eq_getElem (hblocks.length ▸ hi)⟩
    obtain ⟨before, after, rfl, rfl⟩ := exists_split hf
    have hget := (generateIntervalsFile_ok hfile hloop).2 before f after rfl
    rw [List.getD_eq_getElem _ _ hi, heq, halfOpen, Prod.mk.injEq] at hget
    have hoffset : offset (before ++ f :: after) = offset before +
        (f.declared.length + offset after) := by
      rw [← offset_cons, offset, offset, offset, List.flatMap_append, List.length_append]
    omega
  have hderive := @Horndini.generateDerivedPredicatesAndIntervals_eq 1 (2 ^ 32) _ (by omega) hlast
    le_rfl
  have hconjunctions := @Horndini.initialConjunctions_eq 1 (2 ^ 32) (learnerIntervals functions 0)
    le_rfl 0 (by rw [hhalf, hcount]; omega) (by
      intro interval hmem
      cases functions with
      | nil => cases hmem
      | cons f functions =>
        have hlen := hpos f rfl
        obtain rfl := Option.some.inj hmem
        have hin : (⟨0, .ge, -1⟩ : DerivedPredicate) ∈ intervalPredicates 1 (halfOpen
            (0, (0 + f.declared.length + (2 ^ 32 - 1)) % 2 ^ 32)) :=
          Horndini.mem_intervalPredicates_iff.mpr ⟨⟨le_rfl, Nat.succ_pos _⟩, by decide⟩
        exact Nat.lt_of_lt_of_le (List.length_pos_of_mem hin) (Nat.le_add_left _ _))
  have hsub := @Horndini.debugAssertions_of_sub 1 (learnerIntervals functions 0)
    (by rw [hhalf, hcount]; omega)
  rw [hhalf] at hderive hconjunctions hsub
  have hnumber : (unsignedIntervals 1 (learnerIntervals functions 0) 0).length =
      functions.length := by
    have hall := (mapM_ok hconjunctions).length_eq
    rw [hall, Horndini.derivedIntervals_length, hblocks.length]
  refine ⟨_, readIntervalsFile_writeIntervalsFile hattributes hintervals filename, ?_, 2 ^ 32, _, _,
    _, hderive, hconjunctions, hblocks.selects hnd, ?_, fun X hX => hsub hX⟩
  · refine List.forall₂_iff_get.mpr ⟨hlength.symm, fun i hi hi' attr => ?_⟩
    have hget := hblocks.mem i functions[i] (List.getElem?_eq_getElem hi) attr
    rw [← hhalf, Horndini.getD_map_halfOpen _ hi', List.getD_eq_getElem _ _ hi'] at hget
    rw [List.get_eq_getElem, List.get_eq_getElem, ← hget, halfOpen, Nat.lt_succ_iff]
  · rw [hnumber, Attributes.metadata, (generateAttributesFile_ok hfile).1]

/-- The interval of a first function without parameters contains the first attribute. -/
theorem not_intervalsAgree {text : Option (List Char)} {content : List Char}
    (hnd : ((f :: functions).map Function.name).Nodup)
    (hattributes : writeAttributesFile (f :: functions) = .ok (file, text))
    (hintervals : writeIntervalsFile (f :: functions) = .ok content) (hf : f.inParams = []) :
    ¬ IntervalsAgree (f :: functions) file filename content := by
  rintro ⟨intervals, hread, hdenotes, -⟩
  rw [readIntervalsFile_writeIntervalsFile hattributes hintervals, Except.ok.injEq] at hread
  obtain ⟨hfile, -⟩ := offset_le hattributes
  have hnil : f.declared.length = 0 := by
    rw [Function.declared, hf]
    rfl
  rw [← hread, learnerIntervals, List.forall₂_cons] at hdenotes
  have hposition : IsPosition file f 0 ↔ InBlock [] f 0 := isPosition_iff hnd hfile
  obtain ⟨-, hlt⟩ := hposition.mp ((hdenotes.1 0).mp ⟨le_rfl, Nat.zero_le _⟩)
  have hoffset : offset [] = 0 := rfl
  omega

/-- The intervals and the conjunctions of the pre-phase are those of the functions iff there is
    no function or the first one has a parameter. -/
theorem intervalsAgree_iff (functions : List Function) (hnd : (functions.map Function.name).Nodup)
    (file : Attributes) (text : Option (List Char)) (content : List Char) (filename : String)
    (hattributes : writeAttributesFile functions = .ok (file, text))
    (hintervals : writeIntervalsFile functions = .ok content) :
    IntervalsAgree functions file filename content ↔ FirstHasParameter functions := by
  constructor
  · rintro hagree f hf hparams
    obtain ⟨functions, rfl⟩ := List.head?_eq_some_iff.mp hf
    exact not_intervalsAgree hnd hattributes hintervals hparams hagree
  · exact intervalsAgree_of_first hnd hattributes hintervals

/-- An invariant without parameters. -/
def invariantConst : Function := ⟨"const", []⟩

/-- An invariant without parameters after one with parameters. -/
theorem intervalsAgree_iff_const : ∃ file text content,
    writeAttributesFile [invariantXY, invariantConst] = .ok (file, text) ∧
    writeIntervalsFile [invariantXY, invariantConst] = .ok content ∧
    IntervalsAgree [invariantXY, invariantConst] file "xy.intervals" content := by
  have hattributes : ∃ text, writeAttributesFile [invariantXY, invariantConst] =
      .ok (⟨2, attributesXY.attribute2Expr ++ [("const", [])]⟩, text) := ⟨_, rfl⟩
  obtain ⟨text, hattributes⟩ := hattributes
  have hintervals : writeIntervalsFile [invariantXY, invariantConst] =
      .ok "0,3\n4,3\n\n".toList := by
    decide +kernel
  refine ⟨_, text, _, hattributes, hintervals, ?_⟩
  refine (intervalsAgree_iff _ (by decide) _ _ _ _ hattributes hintervals).mpr ?_
  intro f hf
  obtain rfl := Option.some.inj hf
  exact List.cons_ne_nil _ _

/-- For a single invariant without parameters the loop over its attributes does not end. -/
theorem emptyInterval_wraps : ∃ file text,
    writeAttributesFile [invariantConst] = .ok (file, text) ∧
    writeIntervalsFile [invariantConst] = .ok "0,-1\n\n".toList ∧
    readIntervalsFile "const.intervals" "0,-1\n\n".toList = .ok [(0, 4294967295)] ∧
    (∀ fuel r, generateDerivedPredicatesAndIntervals [(0, 4294967295)] 1 fuel ≠ .ok r) ∧
    ¬ IntervalsAgree [invariantConst] file "const.intervals" "0,-1\n\n".toList := by
  have hattributes : ∃ text, writeAttributesFile [invariantConst] =
      .ok (⟨1, [("const", [])]⟩, text) := ⟨_, rfl⟩
  obtain ⟨text, hattributes⟩ := hattributes
  have hintervals : writeIntervalsFile [invariantConst] = .ok "0,-1\n\n".toList := by decide +kernel
  refine ⟨_, text, hattributes, hintervals, by decide +kernel, ?_, ?_⟩
  · rintro fuel ⟨predicates, derived⟩ hrun
    obtain ⟨hlast, -⟩ := Horndini.generateDerivedPredicatesAndIntervals_ok (by decide) hrun
    have hmax := hlast (0, 4294967295) List.mem_cons_self
    omega
  · exact not_intervalsAgree (by decide) hattributes hintervals rfl

end HiceDt.Boogie
