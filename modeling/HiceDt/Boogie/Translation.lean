import HiceDt.Boogie.TreeNode
import HiceDt.Horndini.Prephase
import HiceDt.Learner.Shape

/-!
# From trees to expressions

The teacher reads a tree of the learner as one expression for every existential function.
The learner treats Boolean parameters as integers, and may cut them at any threshold; the
teacher expects that they are cut at zero.

Results:

* `translatesExactly_iff`: what it takes that the expression says what the tree outputs over
  the integers.
* `thresholds_of_cuts`: the learner cuts Boolean attributes at zero.
* `prephase_spec`, `prephase_bool`: the pre-phase does not.
* `constructModel_agrees_iff`: for which trees and tuples of arguments the expression agrees.
-/

namespace HiceDt.Boogie

open Loop Dictionary Machine
open Chc (pairs forall₂_pairs)

/-! ## `GenerateIntervalsFile` -/

/-- The number of attributes of a function (`MLHoudini.cs`, lines 541–563). -/
def numParameters (f : Function) : Except Error ℕ :=
  if f.inParams.all fun p => p.type = .bool ∨ p.type = .int then
    let numBoolArgs := f.inParams.countP fun p => p.type = .bool
    let numIntArgs := f.inParams.countP fun p => p.type = .int
    .ok (numBoolArgs + numIntArgs * numIntArgs)
  else
    .error (.internalError "Existential Functions must have either Boolean or Int typed arguments!")

/-- The loop of `GenerateIntervalsFile` (lines 533–576), with an interval given by its
    first attribute and the one after its last attribute. -/
def intervalsLoop : List Function → ℕ → Except Error (List (ℕ × ℕ))
  | [], _ => .ok []
  | f :: functions, left => do
    let n ← numParameters f
    let rest ← intervalsLoop functions (left + n)
    return (left, left + n) :: rest

/-- `GenerateIntervalsFile`, as the learner reads it. If there are no attributes before a
    function without parameters, the right end of its interval is -1, and the pre-phase does
    not return. -/
def generateIntervalsFile (functions : List Function) : Except Error (List (ℕ × ℕ)) :=
  intervalsLoop functions 0

/-- `functionID`. -/
def functionID (functions : List Function) : List (String × ℕ) :=
  functions.zipIdx.map fun x => (x.1.name, x.2)

/-! ## Samples -/

/-- A tuple of values for the parameters; Boolean parameters have the values 0 and 1. -/
def Typed (f : Function) (v : List ℤ) : Prop :=
  List.Forall₂ (fun p n => Variable.type p = .bool → n = 0 ∨ n = 1) f.inParams v

/-- The data point that the learner has for a tuple of arguments: the row of
    `Datapoint2String`, with sums and differences in 32-bit arithmetic. -/
def dataPoint (functions : List Function) (dp : DataPoint) : Except Error Datapoint := do
  let (category, fields) ← datapointRow functions dp
  return { categoricalData := [category], intData := fields }

/-- The data point with the sums and differences over the integers, which is what the
    expressions of the attributes say. -/
def exactPoint (functions : List Function) (dp : DataPoint) : Except Error Datapoint := do
  let (category, fields) ← rowWith id functions dp
  return { categoricalData := [category], intData := fields }

/-- The points of a sample are rows of the teacher. -/
def IsSample (functions : List Function) (m : Heap) (D : List Ptr) : Prop :=
  ∀ x ∈ D, ∃ f ∈ functions, ∃ v, Typed f v ∧ ∃ category,
    datapointRow functions ⟨f.name, v⟩ = .ok (category, (m x).intData) ∧
    (m x).categoricalData = [category]

/-! ## Attributes of a function -/

variable {functions before after : List Function} {f : Function} {v : List ℤ} {attr : ℕ}

/-- The number of attributes of some functions. -/
def offset (before : List Function) : ℕ := (before.flatMap Function.declared).length

/-- The attribute belongs to the function `f` after the functions `before`. -/
def InBlock (before : List Function) (f : Function) (attr : ℕ) : Prop :=
  offset before ≤ attr ∧ attr < offset before + f.declared.length

/-- The expression for an attribute of the function. -/
def exprAt (before : List Function) (f : Function) (attr : ℕ) : Expr :=
  (f.declared.getD (attr - offset before) ("", .litInt 0)).2

theorem Typed.length (h : Typed f v) : v.length = f.inParams.length := h.length_eq.symm

theorem ownFields_length (machine : ℤ → ℤ) (hlen : v.length = f.inParams.length) :
    (v ++ (pairs (v.zip (f.inParams.map Variable.type))).flatMap (octagonal machine)).length =
      f.declared.length := by
  rw [(ownFields_agree hlen).length_eq, List.length_append, List.length_append, List.length_flatMap,
    List.length_flatMap]
  congr 2
  refine List.map_congr_left fun x _ => ?_
  unfold octagonal
  split_ifs <;> rfl

theorem otherFields_eq (g : Function) : otherFields g = List.replicate g.declared.length 0 := by
  refine List.eq_replicate_iff.mpr ⟨(otherFields_agree g).length_eq.symm, fun x hx => ?_⟩
  obtain ⟨att, -, hatt⟩ := forall₂_mem_right (otherFields_agree g) hx
  exact hatt

theorem flatMap_otherFields (functions : List Function) :
    functions.flatMap otherFields = List.replicate (offset functions) 0 := by
  induction functions with
  | nil => rfl
  | cons g gs ih =>
    rw [List.flatMap_cons, ih, otherFields_eq, ← List.replicate_add, offset, offset,
      List.flatMap_cons, List.length_append]

/-- The row of a data point: zeros, the fields of its function, and zeros. -/
theorem flatMap_block (machine : ℤ → ℤ) (hnd : ((before ++ f :: after).map Function.name).Nodup) :
    (before ++ f :: after).flatMap (block machine ⟨f.name, v⟩) =
      List.replicate (offset before) 0 ++
        ((v ++ (pairs (v.zip (f.inParams.map Variable.type))).flatMap (octagonal machine)) ++
          List.replicate (offset after) 0) := by
  obtain ⟨hbefore, hafter⟩ := @names_ne ⟨f.name, v⟩ f before after hnd rfl
  have hother : ∀ gs : List Function, (∀ g ∈ gs, g.name ≠ f.name) →
      gs.flatMap (block machine ⟨f.name, v⟩) = List.replicate (offset gs) 0 := by
    intro gs hgs
    rw [← flatMap_otherFields]
    refine List.flatMap_congr fun g hg => ?_
    rw [block, if_neg (hgs g hg)]
  rw [List.flatMap_append, List.flatMap_cons, hother before hbefore, hother after hafter, block,
    if_pos rfl]

theorem getD_replicate_zero (n i : ℕ) : (List.replicate n (0 : ℤ)).getD i 0 = 0 := by
  rw [List.getD_eq_getElem?_getD, List.getElem?_replicate]
  split_ifs <;> rfl

/-- An attribute of the function of the data point. -/
theorem getD_block (machine : ℤ → ℤ) (hnd : ((before ++ f :: after).map Function.name).Nodup)
    (hlen : v.length = f.inParams.length) (hin : InBlock before f attr) :
    ((before ++ f :: after).flatMap (block machine ⟨f.name, v⟩)).getD attr 0 =
      (v ++ (pairs (v.zip (f.inParams.map Variable.type))).flatMap (octagonal machine)).getD
        (attr - offset before) 0 := by
  have hown := ownFields_length machine hlen
  obtain ⟨hle, hlt⟩ := hin
  rw [flatMap_block machine hnd, List.getD_append_right _ _ _ _ (by simpa using hle),
    List.length_replicate, List.getD_append _ _ _ _ (by omega)]

/-- An attribute of another function. -/
theorem getD_block_other (machine : ℤ → ℤ) (hnd : ((before ++ f :: after).map Function.name).Nodup)
    (hlen : v.length = f.inParams.length) (hout : ¬ InBlock before f attr) :
    ((before ++ f :: after).flatMap (block machine ⟨f.name, v⟩)).getD attr 0 = 0 := by
  have hown := ownFields_length machine hlen
  unfold InBlock at hout
  rw [flatMap_block machine hnd]
  by_cases hlt : attr < offset before
  · rw [List.getD_append _ _ _ _ (by simpa using hlt), getD_replicate_zero]
  · rw [List.getD_append_right _ _ _ _ (by simpa using hlt), List.length_replicate,
      List.getD_append_right _ _ _ _ (by omega), getD_replicate_zero]

/-! ## Expressions of attributes -/

theorem derived_shallowType {att : String × Expr}
    (h : att ∈ (pairs f.inParams.zipIdx).flatMap (derivedAttributes f.name)) :
    att.2.shallowType = .int := by
  obtain ⟨x, -, hatt⟩ := List.mem_flatMap.mp h
  unfold derivedAttributes at hatt
  split_ifs at hatt
  · simp only [List.mem_cons, List.not_mem_nil, or_false] at hatt
    rcases hatt with rfl | rfl
    · rfl
    · rfl
  · cases hatt

theorem getD_declared {i : ℕ} {p : Variable} (hp : f.inParams[i]? = some p) :
    f.declared.getD i ("", .litInt 0) = (attributeName f.name p, .ident i p.type) := by
  obtain ⟨hi, rfl⟩ := List.getElem?_eq_some_iff.mp hp
  rw [Function.declared, List.getD_append _ _ _ _ (by simpa using hi),
    List.getD_eq_getElem _ _ (by simpa using hi)]
  simp

/-- An attribute is a parameter, or a sum or difference. -/
theorem exprAt_cases (hin : InBlock before f attr) :
    (∃ p, f.inParams[attr - offset before]? = some p ∧
        exprAt before f attr = .ident (attr - offset before) p.type) ∨
      (exprAt before f attr).shallowType = .int := by
  obtain ⟨hle, hlt⟩ := hin
  have hexpr : exprAt before f attr = (f.declared.getD (attr - offset before) ("", .litInt 0)).2 :=
    rfl
  rw [hexpr]
  by_cases hparam : attr - offset before < f.inParams.length
  · have hp := List.getElem?_eq_getElem hparam
    rw [getD_declared hp]
    exact .inl ⟨_, hp, rfl⟩
  · refine .inr (@derived_shallowType f _ ?_)
    have hlen : f.declared.length = f.inParams.length +
        ((pairs f.inParams.zipIdx).flatMap (derivedAttributes f.name)).length := by
      rw [Function.declared, List.length_append, List.length_map, List.length_zipIdx]
    rw [Function.declared, List.getD_append_right _ _ _ _ (by simpa using hparam),
      List.getD_eq_getElem _ _ (by rw [List.length_map, List.length_zipIdx]; omega)]
    exact List.getElem_mem _

/-- The expression of a Boolean attribute is a parameter. -/
theorem exprAt_bool (hin : InBlock before f attr)
    (hbool : (exprAt before f attr).shallowType = .bool) :
    ∃ p, f.inParams[attr - offset before]? = some p ∧ p.type = .bool ∧
      exprAt before f attr = .ident (attr - offset before) .bool := by
  rcases exprAt_cases hin with ⟨p, hp, hexpr⟩ | hint
  · rw [hexpr] at hbool ⊢
    have htype : p.type = .bool := hbool
    exact ⟨p, hp, htype, by rw [htype]⟩
  · rw [hint] at hbool
    cases hbool

/-- A parameter is an attribute. -/
theorem exprAt_param (before : List Function) {i : ℕ} {p : Variable}
    (hp : f.inParams[i]? = some p) :
    InBlock before f (offset before + i) ∧
      exprAt before f (offset before + i) = .ident i p.type := by
  obtain ⟨hi, -⟩ := List.getElem?_eq_some_iff.mp hp
  have hlen : f.inParams.length ≤ f.declared.length := by
    rw [Function.declared, List.length_append, List.length_map, List.length_zipIdx]
    omega
  refine ⟨⟨by omega, by omega⟩, ?_⟩
  rw [exprAt, Nat.add_sub_cancel_left, getD_declared hp]

/-- The parameters of a function with attributes are Boolean or integers. -/
theorem functionAttributes_types {att : List (String × Expr)} (h : functionAttributes f = .ok att) :
    ∀ p ∈ f.inParams, p.type = .bool ∨ p.type = .int := by
  obtain ⟨att₁, h₁, -⟩ := bind_ok.mp h
  have hall : ∀ x ∈ f.inParams.zipIdx, x.1.type = .bool ∨ x.1.type = .int := by
    refine foldlM_ok_spec (I := fun done _ => ∀ x ∈ done, x.1.type = .bool ∨ x.1.type = .int)
      (fun done y rest att att' _ hdone hy x hx => ?_) (fun x hx => by cases hx) h₁
    rcases List.mem_append.mp hx with hx | hx
    · exact hdone x hx
    · rw [List.mem_singleton.mp hx]
      unfold addParameter at hy
      split_ifs at hy with htype
      exact htype
  intro p hp
  obtain ⟨i, hi, rfl⟩ := List.getElem_of_mem hp
  exact hall (f.inParams[i], i) (List.mk_mem_zipIdx_iff_getElem?.mpr (List.getElem?_eq_getElem hi))

theorem generateAttributesFile_types {file : Attributes}
    (h : generateAttributesFile functions = .ok file) (hf : f ∈ functions) :
    ∀ p ∈ f.inParams, p.type = .bool ∨ p.type = .int := by
  obtain ⟨entries, hentries, -⟩ := bind_ok.mp h
  obtain ⟨i, hi, rfl⟩ := List.getElem_of_mem hf
  have hall := mapM_ok hentries
  have hentry := hall.get hi (by rw [← hall.length_eq]; exact hi)
  obtain ⟨att, hatt, -⟩ := bind_ok.mp hentry
  exact functionAttributes_types hatt

theorem attribute2Expr_eq {file : Attributes} (h : generateAttributesFile functions = .ok file) :
    file.attribute2Expr = functions.map fun g => (g.name, g.declared) := by
  obtain ⟨-, hentries⟩ := generateAttributesFile_ok h
  have heq : List.Forall₂ (· = ·) file.attribute2Expr
      (functions.map fun g => (g.name, g.declared)) := by
    rw [List.forall₂_map_right_iff]
    exact List.Forall₂.flip (hentries.imp fun _ _ he => he.1)
  rwa [List.forall₂_eq_eq_eq] at heq

/-- The names of the integer attributes. -/
theorem intNames_eq {file : Attributes} (h : generateAttributesFile functions = .ok file) :
    file.intAttributes.map Prod.snd = functions.flatMap fun g => keys g.declared := by
  rw [Attributes.intAttributes, attribute2Expr_eq h, List.map_flatMap, List.flatMap_map]
  refine List.flatMap_congr fun g _ => ?_
  rw [List.map_map]
  rfl

/-- No attribute has an expression of another type. -/
theorem exprAt_type (htypes : ∀ p ∈ f.inParams, p.type = .bool ∨ p.type = .int)
    (hin : InBlock before f attr) : (exprAt before f attr).shallowType ≠ .other := by
  rcases exprAt_cases hin with ⟨p, hp, hexpr⟩ | hint
  · rw [hexpr]
    intro hother
    have htype : p.type = .other := hother
    rcases htypes p (List.mem_of_getElem? hp) with h | h
    · rw [h] at htype
      cases htype
    · rw [h] at htype
      cases htype
  · rw [hint]
    decide

/-- The learner's name of an attribute stands for its expression. -/
theorem reads_exprAt {file : Attributes}
    (hfile : generateAttributesFile (before ++ f :: after) = .ok file)
    (hin : InBlock before f attr) :
    Reads (file.intAttributes.map Prod.snd) f.declared attr (exprAt before f attr) := by
  have hmem : f ∈ before ++ f :: after := by simp
  obtain ⟨-, hentries⟩ := generateAttributesFile_ok hfile
  have hnd : (keys f.declared).Nodup := by
    obtain ⟨i, hi, hget⟩ := List.getElem_of_mem hmem
    have hentry := (hentries.get hi (by rw [← hentries.length_eq]; exact hi)).2
    rwa [List.get_eq_getElem, hget] at hentry
  have hlen : (before.flatMap fun g => keys g.declared).length = offset before := by
    rw [offset, List.length_flatMap, List.length_flatMap]
    simp [keys]
  have hlt : attr - offset before < f.declared.length := by
    have := hin.2
    have := hin.1
    omega
  have hatt := List.getElem_mem hlt
  have hexpr : exprAt before f attr = (f.declared[attr - offset before]).2 := by
    rw [exprAt, List.getD_eq_getElem _ _ hlt]
  refine ⟨(f.declared[attr - offset before]).1, ?_, ?_,
    exprAt_type (generateAttributesFile_types hfile hmem) hin⟩
  · rw [intNames_eq hfile, List.flatMap_append, List.flatMap_cons,
      List.getElem?_append_right (by rw [hlen]; exact hin.1), hlen,
      List.getElem?_append_left (by rw [keys, List.length_map]; exact hlt), keys, List.getElem?_map,
      List.getElem?_eq_getElem hlt]
    rfl
  · rw [hexpr]
    exact lookup_of_mem hnd hatt

/-! ## Values of attributes -/

/-- An attribute of the corresponding data point is the value of its expression. -/
theorem getD_block_id (hnd : ((before ++ f :: after).map Function.name).Nodup)
    (hlen : v.length = f.inParams.length) (hin : InBlock before f attr) :
    ((before ++ f :: after).flatMap (block id ⟨f.name, v⟩)).getD attr 0 =
      (exprAt before f attr).evalInt v := by
  rw [getD_block id hnd hlen hin, exprAt]
  have hlt : attr - offset before < f.declared.length := by
    obtain ⟨hle, hlt⟩ := hin
    omega
  have hall := ownFields_agree hlen
  have hlt' := hall.length_eq ▸ hlt
  rw [List.getD_eq_getElem _ _ hlt, List.getD_eq_getElem _ _ hlt']
  exact hall.get hlt hlt'

theorem Typed.getD {i : ℕ} {p : Variable} (h : Typed f v) (hp : f.inParams[i]? = some p)
    (hbool : p.type = .bool) : i < v.length ∧ (v.getD i 0 = 0 ∨ v.getD i 0 = 1) := by
  obtain ⟨hi, rfl⟩ := List.getElem?_eq_some_iff.mp hp
  have hi' : i < v.length := by
    rw [h.length]
    exact hi
  rw [List.getD_eq_getElem _ _ hi']
  exact ⟨hi', h.get hi hi' hbool⟩

/-- A Boolean attribute of a row is zero or one. -/
theorem getD_block_bool (machine : ℤ → ℤ) (hnd : ((before ++ f :: after).map Function.name).Nodup)
    (hv : Typed f v) (hin : InBlock before f attr)
    (hbool : (exprAt before f attr).shallowType = .bool) :
    ((before ++ f :: after).flatMap (block machine ⟨f.name, v⟩)).getD attr 0 = 0 ∨
      ((before ++ f :: after).flatMap (block machine ⟨f.name, v⟩)).getD attr 0 = 1 := by
  obtain ⟨p, hp, htype, -⟩ := exprAt_bool hin hbool
  obtain ⟨hlt, hval⟩ := hv.getD hp htype
  rw [getD_block machine hnd hv.length hin, List.getD_append _ _ _ _ hlt]
  exact hval

variable {m : Heap} {D : List Ptr} {x : Ptr}

/-- The points in the category of a function are rows of the function. -/
theorem IsSample.row (hnd : ((before ++ f :: after).map Function.name).Nodup)
    (hs : IsSample (before ++ f :: after) m D) (hx : x ∈ D)
    (hcat : (m x).category 0 = before.length) :
    ∃ v, Typed f v ∧
      (m x).intData = (before ++ f :: after).flatMap (block wrap32 ⟨f.name, v⟩) := by
  obtain ⟨g, hg, v, hv, category, hrow, hdata⟩ := hs x hx
  obtain ⟨before', after', heq⟩ := List.append_of_mem hg
  have hrow' : datapointRow (before ++ f :: after) ⟨g.name, v⟩ =
      .ok (before'.length, (before ++ f :: after).flatMap (block wrap32 ⟨g.name, v⟩)) := by
    rw [heq] at hnd ⊢
    exact rowWith_eq hnd rfl hv.length.le
  obtain ⟨rfl, hfields⟩ := Prod.mk.inj (Except.ok.inj (hrow'.symm.trans hrow))
  have hlen : before.length = before'.length := by
    rw [← hcat, Datapoint.category, hdata]
    rfl
  obtain ⟨-, hcons⟩ := List.append_inj heq hlen
  obtain ⟨rfl, -⟩ := List.cons.inj hcons
  exact ⟨v, hv, hfields.symm⟩

theorem length_flatMap_block (machine : ℤ → ℤ)
    (hnd : ((before ++ f :: after).map Function.name).Nodup) (hlen : v.length = f.inParams.length) :
    ((before ++ f :: after).flatMap (block machine ⟨f.name, v⟩)).length =
      offset (before ++ f :: after) := by
  rw [flatMap_block machine hnd, List.length_append, List.length_append,
    ownFields_length machine hlen,
    List.length_replicate, List.length_replicate, offset, offset, offset, List.flatMap_append,
    List.flatMap_cons, List.length_append, List.length_append]

/-- All points of a sample have one category and the same number of attributes. -/
theorem IsSample.arity (hnd : (functions.map Function.name).Nodup) (hs : IsSample functions m D) :
    Learner.Arity m D 1 (offset functions) := by
  intro x hx
  obtain ⟨g, hg, v, hv, category, hrow, hdata⟩ := hs x hx
  obtain ⟨before, after, rfl⟩ := List.append_of_mem hg
  have hrow' : datapointRow (before ++ g :: after) ⟨g.name, v⟩ =
      .ok (before.length, (before ++ g :: after).flatMap (block wrap32 ⟨g.name, v⟩)) :=
    rowWith_eq hnd rfl hv.length.le
  obtain ⟨-, hfields⟩ := Prod.mk.inj (Except.ok.inj (hrow'.symm.trans hrow))
  rw [hdata, ← hfields, length_flatMap_block wrap32 hnd hv.length]
  exact ⟨rfl, rfl⟩

/-! ## Translatable trees -/

variable {children : ℕ → Tree} {file : Attributes} {debug : Bool}

/-- The subtrees that are not null have integer nodes for attributes of their functions. -/
def Translatable (functions : List Function) (children : ℕ → Tree) : Prop :=
  ∀ before f after, functions = before ++ f :: after → (children before.length).isNull = false →
    (children before.length).isIntTree = true ∧
      (children before.length).Thresholds fun attr _ => InBlock before f attr

/-- The tree as the teacher reads it. -/
def visit (file : Attributes) (t : Tree) : Except Error TreeNode :=
  jsonVisitor [attributeNameOfExistentialFunctions] (file.intAttributes.map Prod.snd) t

/-- The teacher makes an expression for the function, and it says what the tree outputs on
    the data point for the arguments. -/
def TranslationAgrees (debug : Bool) (functions : List Function) (file : Attributes) (f : Function)
    (t : Tree) (v : List ℤ) : Prop :=
  ∃ root e, visit file t = .ok root ∧
    constructModel debug f.name root file.attribute2Expr (functionID functions) = .ok e ∧
    (dataPoint functions ⟨f.name, v⟩ >>= t.output) = .ok (e.evalBool v)

/-- The expression says what the tree outputs on all points with exact sums and differences. -/
def TranslatesExactly (debug : Bool) (functions : List Function) (file : Attributes) (f : Function)
    (t : Tree) : Prop :=
  ∃ root e, visit file t = .ok root ∧
    constructModel debug f.name root file.attribute2Expr (functionID functions) = .ok e ∧
    ∀ v, Typed f v → (exactPoint functions ⟨f.name, v⟩ >>= t.output) = .ok (e.evalBool v)

/-- No sum or difference of the arguments overflows, or the tree does not see it: it outputs
    the same for the sums and differences in 32 bits and over the integers. -/
def OverflowHarmless (functions : List Function) (f : Function) (t : Tree) (v : List ℤ) : Prop :=
  NoOverflow f v ∨
    (dataPoint functions ⟨f.name, v⟩ >>= t.output) = (exactPoint functions ⟨f.name, v⟩ >>= t.output)

theorem exists_split {i : ℕ} (h : functions[i]? = some f) :
    ∃ before after, functions = before ++ f :: after ∧ before.length = i := by
  obtain ⟨hi, rfl⟩ := List.getElem?_eq_some_iff.mp h
  refine ⟨functions.take i, functions.drop (i + 1), ?_, ?_⟩
  · rw [List.cons_getElem_drop_succ, List.take_append_drop]
  · rw [List.length_take]
    omega

/-- The teacher can read the tree, and finds the subtree of every function. -/
theorem visit_ok (hfile : generateAttributesFile functions = .ok file)
    (ht : Translatable functions children) :
    ∃ nodes, visit file (.categorical 0 functions.length children) =
        .ok (.inner attributeNameOfExistentialFunctions 0 true functions.length nodes) ∧
      ∀ i < functions.length, (children i).isNull = false →
        visit file (children i) = .ok (nodes i) ∧ (nodes i).isNull = false := by
  have hchild : ∀ i, ∃ node, i < functions.length →
      (if (children i).isNull then .ok .null else visit file (children i)) = .ok node ∧
        ((children i).isNull = false → node.isNull = false) := by
    intro i
    by_cases hi : i < functions.length
    swap
    · exact ⟨.null, fun h => absurd h hi⟩
    cases hnull : (children i).isNull with
    | true => exact ⟨.null, fun _ => ⟨rfl, fun h => by cases h⟩⟩
    | false =>
      obtain ⟨f, hf⟩ : ∃ f, functions[i]? = some f := ⟨_, List.getElem?_eq_getElem hi⟩
      obtain ⟨before, after, rfl, rfl⟩ := exists_split hf
      obtain ⟨hint, hblock⟩ := ht _ _ _ rfl hnull
      have hreads := hblock.imp fun attr _ hin => reads_exprAt hfile hin
      obtain ⟨node, hnode, hne, -⟩ := pathFormulas_ok false [attributeNameOfExistentialFunctions]
        hint hreads fun h => by cases h
      exact ⟨node, fun _ => ⟨hnode, fun _ => hne⟩⟩
  choose nodes hnodes using hchild
  have hmap : (List.range functions.length).mapM (fun i =>
      if (children i).isNull then .ok .null else visit file (children i)) =
        .ok ((List.range functions.length).map nodes) := by
    refine mapM_returns ?_
    rw [List.forall₂_map_right_iff, List.forall₂_same]
    exact fun i hi => (hnodes i (List.mem_range.mp hi)).1
  refine ⟨fun i => ((List.range functions.length).map nodes).getD i .null, ?_, fun i hi hnull => ?_⟩
  · unfold visit at hmap
    simp only [visit, jsonVisitor, nameAt, hmap, List.getElem?_cons_zero, bind, Except.bind]
    rfl
  · obtain ⟨hvisit, hne⟩ := hnodes i hi
    rw [hnull] at hvisit
    have hget : ((List.range functions.length).map nodes).getD i .null = nodes i := by
      rw [List.getD_eq_getElem _ _ (by simpa using hi)]
      simp
    simp only [hget]
    exact ⟨hvisit, hne hnull⟩

/-- The teacher translates the subtree of the function. -/
theorem constructModel_eq (debug : Bool) (hnd : ((before ++ f :: after).map Function.name).Nodup)
    (hfile : generateAttributesFile (before ++ f :: after) = .ok file) {nodes : ℕ → TreeNode}
    (hnull : (nodes before.length).isNull = false) :
    constructModel debug f.name (.inner attributeNameOfExistentialFunctions 0 true
        (before ++ f :: after).length nodes) file.attribute2Expr
          (functionID (before ++ f :: after)) =
      constructBoogieExpr debug f.declared (nodes before.length) := by
  have hexpr : file.attribute2Expr.lookup f.name = some f.declared := by
    rw [attribute2Expr_eq hfile]
    refine lookup_of_mem ?_ (List.mem_map.mpr ⟨f, by simp, rfl⟩)
    rw [keys, List.map_map]
    exact hnd
  have hid : (functionID (before ++ f :: after)).lookup f.name = some before.length := by
    refine lookup_of_mem ?_ (List.mem_map.mpr ⟨(f, before.length), ?_, rfl⟩)
    · rw [keys, functionID, List.map_map]
      have hnames : (Prod.fst ∘ fun x : Function × ℕ => (x.1.name, x.2)) =
          Function.name ∘ Prod.fst := rfl
      rw [hnames, ← List.map_map, List.zipIdx_map_fst]
      exact hnd
    · rw [List.mk_mem_zipIdx_iff_getElem?, List.getElem?_append_right le_rfl, Nat.sub_self]
      rfl
  have hlt : ¬ (before ++ f :: after).length ≤ before.length := by
    rw [List.length_append, List.length_cons]
    omega
  have htrue : debugAssert debug true = .ok () := by
    unfold debugAssert
    split_ifs <;> rfl
  unfold constructModel
  simp only [hexpr, hid, Option.isSome_some, htrue, bind, Except.bind, ne_eq, not_true_eq_false,
    if_false, if_neg hlt, hnull, Bool.false_eq_true]

theorem exactPoint_eq (hnd : ((before ++ f :: after).map Function.name).Nodup)
    (hlen : v.length = f.inParams.length) :
    exactPoint (before ++ f :: after) ⟨f.name, v⟩ = .ok
      { categoricalData := [before.length]
        intData := (before ++ f :: after).flatMap (block id ⟨f.name, v⟩) } := by
  unfold exactPoint
  rw [rowWith_eq hnd rfl hlen.le]
  rfl

/-- Without overflows the learner has the exact point. -/
theorem dataPoint_eq_exactPoint (hnd : ((before ++ f :: after).map Function.name).Nodup)
    (hlen : v.length = f.inParams.length) (hfits : NoOverflow f v) :
    dataPoint (before ++ f :: after) ⟨f.name, v⟩ = exactPoint (before ++ f :: after)
      ⟨f.name, v⟩ := by
  rw [exactPoint_eq hnd hlen, ← (datapointRow_eq_iff hnd rfl).mpr hfits]
  unfold dataPoint datapointRow
  rw [rowWith_eq hnd rfl hlen.le]
  rfl

/-- What `OverflowHarmless` is about: the outputs are equal. -/
theorem overflowHarmless_iff {t : Tree} (hnd : ((before ++ f :: after).map Function.name).Nodup)
    (hlen : v.length = f.inParams.length) : OverflowHarmless (before ++ f :: after) f t v ↔
      (dataPoint (before ++ f :: after) ⟨f.name, v⟩ >>= t.output) =
        (exactPoint (before ++ f :: after) ⟨f.name, v⟩ >>= t.output) := by
  refine or_iff_right_of_imp fun hfits => ?_
  rw [dataPoint_eq_exactPoint hnd hlen hfits]

/-- An exact translation agrees on a tuple iff overflows do no harm. -/
theorem TranslatesExactly.agrees_iff {debug : Bool} {t : Tree}
    (hnd : ((before ++ f :: after).map Function.name).Nodup)
    (h : TranslatesExactly debug (before ++ f :: after) file f t) (hv : Typed f v) :
    TranslationAgrees debug (before ++ f :: after) file f t v ↔
      OverflowHarmless (before ++ f :: after) f t v := by
  rw [overflowHarmless_iff hnd hv.length]
  obtain ⟨root, e, hroot, he, hall⟩ := h
  rw [hall v hv]
  constructor
  · rintro ⟨root', e', hroot', he', hagree⟩
    obtain rfl := Except.ok.inj (hroot.symm.trans hroot')
    obtain rfl := Except.ok.inj (he.symm.trans he')
    exact hagree
  · exact fun hagree => ⟨root, e, hroot, he, hagree⟩

/-- The output of the tree on the exact data point. -/
theorem output_exactPoint (hnd : ((before ++ f :: after).map Function.name).Nodup)
    (ht : Translatable (before ++ f :: after) children)
    (hnull : (children before.length).isNull = false) (hlen : v.length = f.inParams.length) :
    (exactPoint (before ++ f :: after) ⟨f.name, v⟩ >>=
        Tree.output (.categorical 0 (before ++ f :: after).length children)) =
      .ok ((children before.length).walk fun attr cut =>
        some (decide ((exprAt before f attr).evalInt v ≤ cut))) := by
  obtain ⟨hint, hblock⟩ := ht before f after rfl hnull
  have hlt : before.length < (before ++ f :: after).length := by
    rw [List.length_append, List.length_cons]
    omega
  rw [exactPoint_eq hnd hlen]
  set d : Datapoint := { categoricalData := [before.length]
                         intData := (before ++ f :: after).flatMap (block id ⟨f.name, v⟩) } with hd
  show Tree.output (.categorical 0 (before ++ f :: after).length children) d = _
  have hcat : d.category 0 = before.length := rfl
  rw [Tree.output, hcat, if_pos hlt, if_neg (by rw [hnull]; simp), Tree.output_eq_walk hint]
  congr 1
  refine Tree.walk_congr hblock fun attr cut hin => ?_
  have hval : d.int attr = (exprAt before f attr).evalInt v := getD_block_id hnd hlen hin
  rw [hval]

/-- The expression for the function leads to the same leaves as the tests of the teacher, and
    there is one iff the assertions hold. -/
theorem constructModel_spec (debug : Bool)
    (hnd : ((before ++ f :: after).map Function.name).Nodup)
    (hfile : generateAttributesFile (before ++ f :: after) = .ok file)
    (ht : Translatable (before ++ f :: after) children)
    (hnull : (children before.length).isNull = false) :
    ∃ root, visit file (.categorical 0 (before ++ f :: after).length children) = .ok root ∧
      (∀ e, constructModel debug f.name root file.attribute2Expr
          (functionID (before ++ f :: after)) = .ok e →
        (debug = true → (children before.length).Thresholds fun attr cut =>
          (exprAt before f attr).shallowType = .bool → cut = 0) ∧
        ∀ v, e.evalBool v =
          (children before.length).walk fun attr cut => some ((exprAt before f attr).test v cut)) ∧
      ((debug = true → (children before.length).Thresholds fun attr cut =>
          (exprAt before f attr).shallowType = .bool → cut = 0) →
        ∃ e, constructModel debug f.name root file.attribute2Expr
          (functionID (before ++ f :: after)) = .ok e) := by
  obtain ⟨hint, hblock⟩ := ht before f after rfl hnull
  obtain ⟨nodes, hroot, hnodes⟩ := visit_ok hfile ht
  obtain ⟨hnode, hne⟩ := hnodes before.length (by simp) hnull
  have hmodel := constructModel_eq debug hnd hfile hne
  have hreads := hblock.imp fun attr _ hin => reads_exprAt hfile hin
  refine ⟨_, hroot, fun e he => ?_, fun hcut => ?_⟩
  · rw [hmodel] at he
    obtain ⟨formulas, hformulas, hret⟩ := bind_ok.mp he
    have hcut : debug = true → (children before.length).Thresholds fun attr cut =>
        (exprAt before f attr).shallowType = .bool → cut = 0 := by
      rintro rfl
      exact thresholds_of_pathFormulas hint hreads hnode hformulas
    obtain ⟨node, hnode', -, hpath⟩ := pathFormulas_ok debug [attributeNameOfExistentialFunctions]
      hint hreads hcut
    obtain rfl := Except.ok.inj (hnode.symm.trans hnode')
    obtain ⟨formulas', hformulas', hval⟩ := hpath []
    obtain rfl := Except.ok.inj (hformulas.symm.trans hformulas')
    refine ⟨hcut, fun v => ?_⟩
    rw [← Except.ok.inj hret, makeDisjunction_evalBool, hval, List.all_nil, Bool.true_and]
  · obtain ⟨node, hnode', -, hpath⟩ := pathFormulas_ok debug [attributeNameOfExistentialFunctions]
      hint hreads hcut
    obtain rfl := Except.ok.inj (hnode.symm.trans hnode')
    obtain ⟨formulas, hformulas, -⟩ := hpath []
    refine ⟨makeDisjunction formulas, ?_⟩
    rw [hmodel, constructBoogieExpr, hformulas]
    rfl

/-- The translation is exact iff the assertions hold and the tests of the teacher and of the
    learner lead to leaves with the same label. -/
theorem translatesExactly_iff (hnd : ((before ++ f :: after).map Function.name).Nodup)
    (hfile : generateAttributesFile (before ++ f :: after) = .ok file)
    (ht : Translatable (before ++ f :: after) children)
    (hnull : (children before.length).isNull = false) :
    TranslatesExactly debug (before ++ f :: after) file f
        (.categorical 0 (before ++ f :: after).length children) ↔
      (debug = true → (children before.length).Thresholds fun attr cut =>
        (exprAt before f attr).shallowType = .bool → cut = 0) ∧
      ∀ v, Typed f v →
        ((children before.length).walk fun attr cut =>
            some (decide ((exprAt before f attr).evalInt v ≤ cut))) =
          (children before.length).walk fun attr cut =>
            some ((exprAt before f attr).test v cut) := by
  obtain ⟨root, hroot, hspec, hmodel⟩ := constructModel_spec debug hnd hfile ht hnull
  constructor
  · rintro ⟨root', e, hroot', he, hagree⟩
    obtain rfl := Except.ok.inj (hroot.symm.trans hroot')
    obtain ⟨hcut, hval⟩ := hspec e he
    refine ⟨hcut, fun v hv => ?_⟩
    have hv' := hagree v hv
    rw [output_exactPoint hnd ht hnull hv.length] at hv'
    rw [Except.ok.inj hv', hval]
  · rintro ⟨hcut, hwalk⟩
    obtain ⟨e, he⟩ := hmodel hcut
    refine ⟨root, e, hroot, he, fun v hv => ?_⟩
    rw [output_exactPoint hnd ht hnull hv.length, hwalk v hv, (hspec e he).2]

/-- If all Boolean attributes are cut at zero, the translation is exact. -/
theorem translatesExactly_of_cuts (debug : Bool)
    (hnd : ((before ++ f :: after).map Function.name).Nodup)
    (hfile : generateAttributesFile (before ++ f :: after) = .ok file)
    (ht : Translatable (before ++ f :: after) children)
    (hnull : (children before.length).isNull = false)
    (hcut : (children before.length).Thresholds fun attr cut => InBlock before f attr ∧
      ((exprAt before f attr).shallowType = .bool → cut = 0)) :
    TranslatesExactly debug (before ++ f :: after) file f
      (.categorical 0 (before ++ f :: after).length children) := by
  refine (translatesExactly_iff hnd hfile ht hnull).mpr
    ⟨fun _ => hcut.imp fun _ _ h => h.2, fun v hv => Tree.walk_congr hcut fun attr cut h => ?_⟩
  unfold Expr.test
  split_ifs with hbool
  · -- a Boolean parameter is at most zero iff it is not true
    obtain ⟨p, hp, htype, hexpr⟩ := exprAt_bool h.1 hbool
    obtain ⟨-, hval⟩ := hv.getD hp htype
    rw [h.2 hbool, hexpr, Expr.evalInt, Expr.evalBool]
    rcases hval with hval | hval
    · rw [hval]
      rfl
    · rw [hval]
      rfl
  · rfl

/-! ## Trees of the learner -/

/-- The integer attributes of a point of a sample. -/
theorem IsSample.int (hnd : ((before ++ f :: after).map Function.name).Nodup)
    (hs : IsSample (before ++ f :: after) m D) (hx : x ∈ D)
    (hcat : (m x).category 0 = before.length) (attr : ℕ) :
    (¬ InBlock before f attr → (m x).int attr = 0) ∧
      (InBlock before f attr → (exprAt before f attr).shallowType = .bool →
        (m x).int attr = 0 ∨ (m x).int attr = 1) := by
  obtain ⟨v, hv, hdata⟩ := hs.row hnd hx hcat
  rw [Datapoint.int, hdata]
  exact ⟨fun hout => getD_block_other wrap32 hnd hv.length hout,
    fun hin hbool => getD_block_bool wrap32 hnd hv hin hbool⟩

/-- A cut that separates two points in the category of a function is at an attribute of the
    function, and at zero if the attribute is Boolean. -/
theorem thresholds_of_cuts (hnd : ((before ++ f :: after).map Function.name).Nodup)
    (hs : IsSample (before ++ f :: after) m D) {t : Tree}
    (ht : t.Cuts fun d => Learner.InSample D m d ∧ d.category 0 = before.length) :
    t.Thresholds fun attr cut => InBlock before f attr ∧
      ((exprAt before f attr).shallowType = .bool → cut = 0) := by
  refine ht.thresholds ?_
  rintro attr cut d d' ⟨⟨x, hx, hcore⟩, hcat⟩ ⟨⟨x', hx', hcore'⟩, hcat'⟩ hle hlt
  rw [Learner.category_congr hcore] at hcat
  rw [Learner.category_congr hcore'] at hcat'
  rw [Learner.int_congr hcore] at hle
  rw [Learner.int_congr hcore'] at hlt
  obtain ⟨hout, hbool⟩ := hs.int hnd hx hcat attr
  obtain ⟨hout', hbool'⟩ := hs.int hnd hx' hcat' attr
  have hin : InBlock before f attr := by
    by_contra hno
    rw [hout hno] at hle
    rw [hout' hno] at hlt
    omega
  refine ⟨hin, fun htype => ?_⟩
  have h := hbool hin htype
  have h' := hbool' hin htype
  omega

/-! ## Intervals -/

/-- The number of sums and differences of integer parameters. -/
theorem length_derived (name : String) (l : List (Variable × ℕ)) :
    ((pairs l).flatMap (derivedAttributes name)).length + l.countP (fun x => x.1.type = .int) =
      l.countP (fun x => x.1.type = .int) * l.countP (fun x => x.1.type = .int) := by
  induction l with
  | nil => rfl
  | cons a l ih =>
    have hfirst : ((l.map fun b => (a, b)).flatMap (derivedAttributes name)).length =
        if a.1.type = .int then 2 * l.countP (fun x => x.1.type = .int) else 0 := by
      clear ih
      induction l with
      | nil => simp
      | cons b l ih =>
        rw [List.map_cons, List.flatMap_cons, List.length_append, ih, List.countP_cons,
          derivedAttributes]
        by_cases ha : a.1.type = .int
        · by_cases hb : b.1.type = .int
          · simp [ha, hb]
            omega
          · simp [ha, hb]
        · simp [ha]
    rw [pairs, List.flatMap_append, List.length_append, hfirst, List.countP_cons]
    by_cases ha : a.1.type = .int
    · simp only [ha, if_true, decide_true]
      nlinarith [ih]
    · simp only [ha, if_false, decide_false, Bool.false_eq_true, Nat.zero_add, Nat.add_zero]
      exact ih

theorem numParameters_eq (htypes : ∀ p ∈ f.inParams, p.type = .bool ∨ p.type = .int) :
    numParameters f = .ok f.declared.length := by
  have hall : (f.inParams.all fun p => p.type = .bool ∨ p.type = .int) = true :=
    List.all_eq_true.mpr fun p hp => decide_eq_true (htypes p hp)
  have hints : f.inParams.zipIdx.countP (fun x => x.1.type = .int) =
      f.inParams.countP fun p => p.type = .int := by
    have hmap := List.countP_map (p := fun p : Variable => decide (p.type = .int)) (f := Prod.fst)
      (l := f.inParams.zipIdx)
    rw [List.zipIdx_map_fst] at hmap
    exact hmap.symm
  have hbools : f.inParams.length = f.inParams.countP (fun p => p.type = .bool) +
      f.inParams.countP fun p => p.type = .int := by
    rw [List.length_eq_countP_add_countP fun p : Variable => decide (p.type = .bool)]
    congr 1
    refine List.countP_congr fun p hp => ?_
    rcases htypes p hp with h | h
    · simp [h]
    · simp [h]
  have hderived := length_derived f.name f.inParams.zipIdx
  rw [hints] at hderived
  rw [numParameters, if_pos hall, Function.declared, List.length_append, List.length_map,
    List.length_zipIdx, hbools]
  show Except.ok _ = Except.ok _
  rw [Except.ok.injEq]
  omega

/-- The intervals are the attributes of the functions. -/
theorem intervalsLoop_eq (functions : List Function)
    (htypes : ∀ g ∈ functions, ∀ p ∈ g.inParams, p.type = .bool ∨ p.type = .int) (left : ℕ) :
    ∃ intervals, intervalsLoop functions left = .ok intervals ∧
      intervals.length = functions.length ∧
      ∀ before f after, functions = before ++ f :: after → intervals.getD before.length (0, 0) =
        (left + offset before, left + offset before + f.declared.length) := by
  induction functions generalizing left with
  | nil =>
    refine ⟨[], rfl, rfl, fun before f after h => ?_⟩
    simp at h
  | cons g gs ih =>
    obtain ⟨rest, hrest, hlen, hget⟩ := ih (fun g' hg' => htypes g' (List.mem_cons_of_mem _ hg'))
      (left + g.declared.length)
    refine ⟨(left, left + g.declared.length) :: rest, ?_, ?_, fun before f after h => ?_⟩
    · rw [intervalsLoop, numParameters_eq (htypes g List.mem_cons_self)]
      simp only [bind, Except.bind, hrest]
      rfl
    · rw [List.length_cons, List.length_cons, hlen]
    · cases before with
      | nil =>
        obtain ⟨rfl, -⟩ := List.cons.inj h
        rfl
      | cons b before =>
        obtain ⟨rfl, htail⟩ := List.cons.inj h
        have hoffset : offset (g :: before) = g.declared.length + offset before := by
          rw [offset, offset, List.flatMap_cons, List.length_append]
        rw [List.length_cons, List.getD_cons_succ, hget before f after htail, hoffset]
        congr 1
        · omega
        · omega

/-! ## Trees of the pre-phase -/

open Horndini (conjunction2tree conjunctions2tree predicateAt DerivedPredicate
    generateDerivedPredicates
  horndiniPrephase derivedIntervals intervalPredicates attributePredicates)

variable {hcs : List HornConstraint} {intervals : List (ℕ × ℕ)}

theorem generateIntervalsFile_ok (hfile : generateAttributesFile functions = .ok file)
    (hintervals : generateIntervalsFile functions = .ok intervals) :
    intervals.length = functions.length ∧
      ∀ before f after, functions = before ++ f :: after → intervals.getD before.length (0, 0) =
        (offset before, offset before + f.declared.length) := by
  obtain ⟨intervals', hrun, hlen, hget⟩ := intervalsLoop_eq functions
    (fun g hg => generateAttributesFile_types hfile hg) 0
  obtain rfl := Except.ok.inj (hrun.symm.trans hintervals)
  refine ⟨hlen, fun before f after h => ?_⟩
  rw [hget before f after h, Nat.zero_add]

theorem IsSample.category_lt (hnd : (functions.map Function.name).Nodup)
    (hs : IsSample functions m D) : ∀ x ∈ D, (m x).category 0 < functions.length := by
  intro x hx
  obtain ⟨g, hg, v, hv, category, hrow, hdata⟩ := hs x hx
  obtain ⟨before, after, rfl⟩ := List.append_of_mem hg
  have hrow' : datapointRow (before ++ g :: after) ⟨g.name, v⟩ =
      .ok (before.length, (before ++ g :: after).flatMap (block wrap32 ⟨g.name, v⟩)) :=
    rowWith_eq hnd rfl hv.length.le
  obtain ⟨rfl, -⟩ := Prod.mk.inj (Except.ok.inj (hrow'.symm.trans hrow))
  rw [Datapoint.category, hdata, List.length_append, List.length_cons]
  show before.length < _
  omega

/-- A predicate that holds at zero and at one is not removed. -/
theorem mem_intervalPredicates_bounds (hin : InBlock before f attr) :
    (⟨attr, .ge, -1⟩ : DerivedPredicate) ∈
        intervalPredicates 1 (offset before, offset before + f.declared.length) ∧
      (⟨attr, .le, 1⟩ : DerivedPredicate) ∈
        intervalPredicates 1 (offset before, offset before + f.declared.length) := by
  have hattr : attr ∈ List.range' (offset before)
      (offset before + f.declared.length - offset before) := by
    obtain ⟨hle, hlt⟩ := hin
    rw [List.mem_range'_1]
    omega
  refine ⟨List.mem_flatMap.mpr ⟨attr, hattr, ?_⟩, List.mem_flatMap.mpr ⟨attr, hattr, ?_⟩⟩
  · exact List.mem_flatMap.mpr ⟨0, by decide, by simp⟩
  · exact List.mem_flatMap.mpr ⟨2, by decide, by simp⟩

/-- A tree of the pre-phase: the subtree of every function is the tree of a conjunction over
    its attributes, which has the predicates that hold at all points of the sample. -/
theorem prephase_spec (hnd : (functions.map Function.name).Nodup)
    (hfile : generateAttributesFile functions = .ok file)
    (hintervals : generateIntervalsFile functions = .ok intervals) (hs : IsSample functions m D)
    (hprem : ∀ hc ∈ hcs, ∀ x ∈ hc.premises, x ∈ D)
    (hconc : ∀ hc ∈ hcs, ∀ c, hc.conclusion = some c → c ∈ D) {n fuel : ℕ} {t : Tree}
    (hrun : horndiniPrephase m D hcs n intervals fuel = .ok t) :
    ∃ predicates children, t = .categorical 0 functions.length children ∧
      ∀ before f after, functions = before ++ f :: after →
        ∃ conjunction, children before.length = conjunction2tree predicates conjunction ∧
          (∀ c ∈ conjunction, InBlock before f (predicateAt predicates c).index) ∧
          ∀ p ∈ intervalPredicates 1 (offset before, offset before + f.declared.length),
            (∀ x ∈ D, (m x).category 0 = before.length → p.holds (m x) = true) →
            ∃ c ∈ conjunction, predicateAt predicates c = p := by
  obtain ⟨hlen, hget⟩ := generateIntervalsFile_ok hfile hintervals
  have hcat : ∀ x ∈ D, (m x).category 0 < intervals.length := by
    rw [hlen]
    exact hs.category_lt hnd
  obtain ⟨X, hX, rfl, hsub, hkeep⟩ := Horndini.horndiniPrephase_ok hcat hprem hconc hrun
  refine ⟨generateDerivedPredicates intervals 1, _, by rw [conjunctions2tree, hlen],
    fun before f after h => ?_⟩
  have hi : before.length < X.length := by
    rw [hX, hlen, h, List.length_append, List.length_cons]
    omega
  have hgetD : X.getD before.length [] = X[before.length] := List.getD_eq_getElem _ _ hi
  refine ⟨X[before.length], ?_, fun c hc => ?_, fun p hp hall => ?_⟩
  · rw [List.getElem?_eq_getElem hi]
  · have hmem : c ∈ (derivedIntervals 1 intervals 0).getD before.length [] := by
      refine (hsub.getD before.length).subset ?_
      rw [hgetD]
      exact hc
    have hindex := Horndini.derivedIntervals_index 1 intervals [] before.length c hmem
    rw [hget before f after h] at hindex
    exact hindex
  · rw [← hget before f after h] at hp
    obtain ⟨c, hc, hlt, hpred⟩ := Horndini.exists_derived 1 intervals [] (hX ▸ hi) hp
    refine ⟨c, ?_, hpred⟩
    rw [← hgetD]
    refine hkeep before.length c hc hlt fun x hx hcategory => ?_
    have hpred' : predicateAt (generateDerivedPredicates intervals 1) c = p := hpred
    rw [hpred']
    exact hall x hx hcategory

/-- A Boolean parameter: the conjunction has two predicates that hold for zero and one, one
    with a cut at 1, and the tests of the teacher contradict each other. -/
theorem prephase_bool {predicates : List DerivedPredicate} {conjunction : List ℕ}
    (hnd : ((before ++ f :: after).map Function.name).Nodup)
    (hs : IsSample (before ++ f :: after) m D)
    (hkeep : ∀ p ∈ intervalPredicates 1 (offset before, offset before + f.declared.length),
      (∀ x ∈ D, (m x).category 0 = before.length → p.holds (m x) = true) →
      ∃ c ∈ conjunction, predicateAt predicates c = p)
    {p : Variable} (hp : p ∈ f.inParams) (hbool : p.type = .bool) :
    (¬ (conjunction2tree predicates conjunction).Thresholds fun attr cut =>
        (exprAt before f attr).shallowType = .bool → cut = 0) ∧
      ∀ v, ((conjunction2tree predicates conjunction).walk fun attr cut =>
        some ((exprAt before f attr).test v cut)) = false := by
  obtain ⟨j, hj, hget⟩ := List.getElem_of_mem hp
  have hparam : f.inParams[j]? = some p := by rw [List.getElem?_eq_getElem hj, hget]
  obtain ⟨hin, hexpr⟩ := exprAt_param before hparam
  have htype : (exprAt before f (offset before + j)).shallowType = .bool := by
    rw [hexpr]
    exact hbool
  have hval := fun x hx hcat => (hs.int hnd (x := x) hx hcat (offset before + j)).2 hin htype
  obtain ⟨hge, hle⟩ := mem_intervalPredicates_bounds hin
  obtain ⟨c, hc, hpred⟩ := hkeep _ hge fun x hx hcat => by
    have := hval x hx hcat
    simp only [DerivedPredicate.holds, decide_eq_true_eq]
    omega
  obtain ⟨c', hc', hpred'⟩ := hkeep _ hle fun x hx hcat => by
    have := hval x hx hcat
    simp only [DerivedPredicate.holds, decide_eq_true_eq]
    omega
  refine ⟨fun hcut => ?_, fun v => ?_⟩
  · have hcut' := ((Horndini.conjunction2tree_thresholds _ _ _).mp hcut c' hc').1
    rw [hpred'] at hcut'
    have hone : (1 : ℤ) = 0 := hcut' (by simp) htype
    omega
  · rw [Horndini.conjunction2tree_walk predicates conjunction
      fun attr cut => (exprAt before f attr).test v cut, Bool.eq_false_iff]
    intro hall
    rw [List.all_eq_true] at hall
    have h := hall c hc
    have h' := hall c' hc'
    rw [hpred, Horndini.DerivedPredicate.test] at h
    rw [hpred', Horndini.DerivedPredicate.test] at h'
    simp only [Expr.test, htype, if_true] at h h'
    simp [h'] at h

/-! ## Trees that the learner writes -/

/-- The trees that are written for the teacher: those of `learner::learn`, and those of the
    pre-phase (`true`). -/
inductive Writes (F : Type) [Learner.Score F] (functions : List Function) : Bool → Tree → Prop
  | learn {env : Learner.Environment} {cfg : Learner.Settings} {fuel : ℕ}
      {s₀ s₁ s' : Learner.LearnerState F} {t : Tree}
      (valid : Solver.ValidInput s₀.solver.mem s₀.datapointPtrs cfg.hornConstraints [] [])
      (slices : s₀.slices = []) (isFirstSplit : s₀.isFirstSplit = true)
      (sample : IsSample functions s₀.solver.mem s₀.datapointPtrs)
      (categories : cfg.numberOfCategories = [functions.length])
      (initial : Learner.initialRun env cfg s₀ = .ok s₁)
      (run : Learner.learn env cfg fuel s₁ = .ok (t, s')) : Writes F functions false t
  | prephase {m : Heap} {D : List Ptr} {hcs : List HornConstraint} {intervals : List (ℕ × ℕ)}
      {fuel : ℕ} {t : Tree} (sample : IsSample functions m D)
      (premises : ∀ hc ∈ hcs, ∀ x ∈ hc.premises, x ∈ D)
      (conclusion : ∀ hc ∈ hcs, ∀ c, hc.conclusion = some c → c ∈ D)
      (intervalsFile : generateIntervalsFile functions = .ok intervals)
      (run : horndiniPrephase m D hcs functions.length intervals fuel = .ok t) :
      Writes F functions true t

/-- A tree of `learn` has an exact translation. -/
theorem learn_translatesExactly {F : Type} [Learner.Score F] {env : Learner.Environment}
    {cfg : Learner.Settings}
    {fuel : ℕ} {s₀ s₁ s' : Learner.LearnerState F} {t c : Tree} (debug : Bool)
    (hnd : ((before ++ f :: after).map Function.name).Nodup)
    (hfile : generateAttributesFile (before ++ f :: after) = .ok file)
    (hv : Solver.ValidInput s₀.solver.mem s₀.datapointPtrs cfg.hornConstraints [] [])
    (hslices : s₀.slices = []) (hfirst : s₀.isFirstSplit = true)
    (hs : IsSample (before ++ f :: after) s₀.solver.mem s₀.datapointPtrs)
    (hcategories : cfg.numberOfCategories = [(before ++ f :: after).length])
    (hinit : Learner.initialRun env cfg s₀ = .ok s₁)
    (hrun : Learner.learn env cfg fuel s₁ = .ok (t, s')) (hc : t.child before.length = some c)
    (hnull : c.isNull = false) :
    TranslatesExactly debug (before ++ f :: after) file f t := by
  have hne : s₀.datapointPtrs ≠ [] := by
    -- on an empty sample the tree is a leaf
    intro hempty
    have hs₁ : s₁.datapointPtrs = [] := by
      rcases Learner.initialRun_spec env cfg s₀ hv with ⟨-, st, hok, -⟩ | ⟨-, herr⟩
      · rw [hok] at hinit
        rw [← Except.ok.inj hinit]
        exact hempty
      · rw [herr] at hinit
        cases hinit
    unfold Learner.learn at hrun
    rw [if_pos (by rw [hs₁]; rfl)] at hrun
    rw [← (Prod.mk.inj (Except.ok.inj hrun)).1] at hc
    cases hc
  obtain ⟨children, rfl, hchildren⟩ := Learner.learn_shaped hv hslices hfirst hne (hs.arity hnd)
    hinit hrun
  have hn : cfg.numberOfCategories.getD 0 0 = (before ++ f :: after).length := by
    rw [hcategories]
    rfl
  rw [hn] at hc ⊢
  have hchild : children before.length = c := by
    rw [Tree.child, if_pos (by simp)] at hc
    exact Option.some.inj hc
  have ht : Translatable (before ++ f :: after) children := by
    intro before' f' after' heq hnull'
    obtain ⟨hcuts, hint⟩ := hchildren before'.length
    refine ⟨hint hnull', ?_⟩
    rw [heq] at hnd hs
    exact (thresholds_of_cuts hnd hs hcuts).imp fun _ _ h => h.1
  refine translatesExactly_of_cuts debug hnd hfile ht (by rw [hchild]; exact hnull) ?_
  exact thresholds_of_cuts hnd hs (hchildren before.length).1

/-- A tree of the pre-phase: without Boolean parameters its translation is exact. With one,
    an assertion fails, or the expression is false everywhere. -/
theorem prephase_translates {t : Tree} {n fuel : ℕ} (debug : Bool)
    (hnd : ((before ++ f :: after).map Function.name).Nodup)
    (hfile : generateAttributesFile (before ++ f :: after) = .ok file)
    (hs : IsSample (before ++ f :: after) m D) (hprem : ∀ hc ∈ hcs, ∀ x ∈ hc.premises, x ∈ D)
    (hconc : ∀ hc ∈ hcs, ∀ c, hc.conclusion = some c → c ∈ D)
    (hintervals : generateIntervalsFile (before ++ f :: after) = .ok intervals)
    (hrun : horndiniPrephase m D hcs n intervals fuel = .ok t) :
    ((∀ p ∈ f.inParams, p.type ≠ .bool) →
      TranslatesExactly debug (before ++ f :: after) file f t) ∧
    ((∃ p ∈ f.inParams, p.type = .bool) → ∀ v,
      (TranslationAgrees debug (before ++ f :: after) file f t v ↔
        debug = false ∧
          (dataPoint (before ++ f :: after) ⟨f.name, v⟩ >>= t.output) = .ok false)) := by
  obtain ⟨predicates, children, rfl, hchildren⟩ :=
    prephase_spec hnd hfile hintervals hs hprem hconc hrun
  have ht : Translatable (before ++ f :: after) children := by
    intro before' f' after' heq _
    obtain ⟨conjunction, hconj, hblock, -⟩ := hchildren before' f' after' heq
    rw [hconj]
    refine ⟨Horndini.conjunction2tree_isIntTree _ _, ?_⟩
    rw [Horndini.conjunction2tree_thresholds]
    exact fun c hc => ⟨fun _ => hblock c hc, fun _ => hblock c hc⟩
  obtain ⟨conjunction, hconj, -, hkeep⟩ := hchildren before f after rfl
  have hnull : (children before.length).isNull = false := by
    rw [hconj]
    exact Horndini.conjunction2tree_isNull _ _
  constructor
  · intro hbool
    refine translatesExactly_of_cuts debug hnd hfile ht hnull ?_
    refine (ht before f after rfl hnull).2.imp fun attr cut hin => ⟨hin, fun htype => ?_⟩
    obtain ⟨p, hp, hp', -⟩ := exprAt_bool hin htype
    exact absurd hp' (hbool p (List.mem_of_getElem? hp))
  · rintro ⟨p, hp, hp'⟩ v
    obtain ⟨hcut, hfalse⟩ := prephase_bool hnd hs hkeep hp hp'
    rw [← hconj] at hcut hfalse
    obtain ⟨root, hroot, hspec, hmodel⟩ := constructModel_spec debug hnd hfile ht hnull
    constructor
    · rintro ⟨root', e, hroot', he, hagree⟩
      obtain rfl := Except.ok.inj (hroot.symm.trans hroot')
      obtain ⟨hcut', hval⟩ := hspec e he
      refine ⟨?_, ?_⟩
      · cases debug with
        | false => rfl
        | true => exact absurd (hcut' rfl) hcut
      · rw [hagree, hval, hfalse]
    · rintro ⟨rfl, hout⟩
      obtain ⟨e, he⟩ := hmodel fun h => by cases h
      refine ⟨root, e, hroot, he, ?_⟩
      rw [hout, (hspec e he).2, hfalse]

/-- For every tree that is written, every function whose subtree is not null, and every tuple
    of arguments: a tree of `learner::learn`, or any tree if the function has no Boolean
    parameter, agrees with the expression of the teacher iff overflows do no harm. A tree of
    the pre-phase for a function with a Boolean parameter agrees iff assertions are not
    checked and its output is false. -/
theorem constructModel_agrees_iff (F : Type) [Learner.Score F] (functions : List Function)
    (hnd : (functions.map Function.name).Nodup) (file : Attributes)
    (hfile : generateAttributesFile functions = .ok file) (prephase : Bool) (t : Tree)
    (ht : Writes F functions prephase t) (debug : Bool) (i : ℕ) (f : Function)
    (hf : functions[i]? = some f) (c : Tree) (hc : t.child i = some c) (hnull : c.isNull = false)
    (v : List ℤ) (hv : Typed f v) :
    TranslationAgrees debug functions file f t v ↔
      (prephase = false ∨ ∀ p ∈ f.inParams, p.type ≠ .bool) ∧ OverflowHarmless functions f t v ∨
        prephase = true ∧ (∃ p ∈ f.inParams, p.type = .bool) ∧ debug = false ∧
          (dataPoint functions ⟨f.name, v⟩ >>= t.output) = .ok false := by
  obtain ⟨before, after, rfl, rfl⟩ := exists_split hf
  cases ht with
  | learn valid slices isFirstSplit sample categories initial run =>
    have hexact := learn_translatesExactly debug hnd hfile valid slices isFirstSplit sample
      categories initial run hc hnull
    rw [hexact.agrees_iff hnd hv]
    simp
  | prephase sample premises conclusion intervalsFile run =>
    obtain ⟨hexact, hbool⟩ := prephase_translates debug hnd hfile sample premises conclusion
      intervalsFile run
    by_cases hp : ∃ p ∈ f.inParams, p.type = .bool
    · rw [hbool hp v]
      have hnot : ¬ ∀ p ∈ f.inParams, p.type ≠ .bool := by simpa using hp
      simp [hp, hnot]
    · have hall : ∀ p ∈ f.inParams, p.type ≠ .bool := by simpa using hp
      rw [(hexact hall).agrees_iff hnd hv]
      exact ⟨fun h => .inl ⟨.inr hall, h⟩, fun h => h.elim And.right fun h => absurd h.2.1 hp⟩

/-- A sample with the positive points (5, -5) and (-5, 5) of `inv(x, y)`. -/
def oppositePoints : Heap := fun p =>
  { categoricalData := [0]
    intData := if p = .point 0 then [5, -5, 0, 10] else [-5, 5, 0, -10]
    isClassified := true
    classification := true }

/-- The tree of the pre-phase for these points: it cuts their sum only. -/
def oppositeTree : Tree :=
  (horndiniPrephase oppositePoints [.point 0, .point 1] [] 1 [(0, 4)] 1).toOption.getD (.leaf false)

theorem oppositeTree_writes : Writes ℝ [invariantXY] true oppositeTree := by
  have hsample : IsSample [invariantXY] oppositePoints [.point 0, .point 1] := by
    intro x hx
    simp only [List.mem_cons, List.not_mem_nil, or_false] at hx
    refine ⟨_, List.mem_singleton_self _, if x = .point 0 then [5, -5] else [-5, 5], ?_, 0, ?_, rfl⟩
    · rcases hx with rfl | rfl
      · exact .cons (fun h => by cases h) (.cons (fun h => by cases h) .nil)
      · exact .cons (fun h => by cases h) (.cons (fun h => by cases h) .nil)
    · rcases hx with rfl | rfl
      · rfl
      · rfl
  have hprem : ∀ hc ∈ ([] : List HornConstraint), ∀ x ∈ hc.premises,
      x ∈ [Ptr.point 0, Ptr.point 1] := by simp
  have hconc : ∀ hc ∈ ([] : List HornConstraint), ∀ c, hc.conclusion = some c →
      c ∈ [Ptr.point 0, Ptr.point 1] := by simp
  have hrun : horndiniPrephase oppositePoints [.point 0, .point 1] [] 1 [(0, 4)] 1 =
      .ok oppositeTree := rfl
  exact .prephase hsample hprem hconc rfl hrun

theorem constructModel_agrees_iff_integer : Writes ℝ [invariantXY] true oppositeTree ∧
    TranslationAgrees true [invariantXY] attributesXY invariantXY oppositeTree [3, -2] := by
  have htyped : Typed invariantXY [3, -2] :=
    .cons (fun h => by cases h) (.cons (fun h => by cases h) .nil)
  obtain ⟨c, hc, hnull⟩ : ∃ c, oppositeTree.child 0 = some c ∧ c.isNull = false := ⟨_, rfl, rfl⟩
  refine ⟨oppositeTree_writes, ?_⟩
  refine (constructModel_agrees_iff ℝ [invariantXY] (by simp) attributesXY
    generateAttributesFile_invariantXY true oppositeTree oppositeTree_writes true 0 invariantXY rfl
    c hc hnull [3, -2] htyped).mpr (.inl ⟨.inr fun p hp => ?_, .inl invariantXY_fits⟩)
  simp only [invariantXY, List.mem_cons, List.not_mem_nil, or_false] at hp
  rcases hp with rfl | rfl
  · decide
  · decide

/-- An overflow that does harm: in 32 bits the sum of the arguments is zero. -/
example : (dataPoint [invariantXY] ⟨"inv", [-2147483648, -2147483648]⟩ >>= oppositeTree.output) =
      .ok true ∧
    (exactPoint [invariantXY] ⟨"inv", [-2147483648, -2147483648]⟩ >>= oppositeTree.output) =
      .ok false := ⟨rfl, rfl⟩

/-- An invariant over one parameter. -/
def invariantOver (p : Variable) : Function := ⟨"inv", [p]⟩

/-- A sample with one point, which is positive. -/
def onePositive (value : ℤ) : Heap :=
  fun _ => { categoricalData := [0], intData := [value], isClassified := true, classification :=
  true }

/-- The tree of the pre-phase for the positive point `true`: an assertion fails, and if
    assertions are not checked, the expression is false where the tree outputs true. -/
theorem constructModel_disagrees_boolean : ∃ file t,
    generateAttributesFile [invariantOver ⟨"b", .bool⟩] = .ok file ∧
    Writes ℝ [invariantOver ⟨"b", .bool⟩] true t ∧
    (dataPoint [invariantOver ⟨"b", .bool⟩] ⟨"inv", [1]⟩ >>= t.output) = .ok true ∧
    ∀ debug,
      ¬ TranslationAgrees debug [invariantOver ⟨"b", .bool⟩] file (invariantOver ⟨"b", .bool⟩) t
        [1] := by
  have htyped : Typed (invariantOver ⟨"b", .bool⟩) [1] := .cons (fun _ => .inr rfl) .nil
  have hsample : IsSample [invariantOver ⟨"b", .bool⟩] (onePositive 1) [.point 0] := by
    intro x _
    exact ⟨_, List.mem_singleton_self _, [1], htyped, 0, rfl, rfl⟩
  obtain ⟨t, hrun, hout⟩ : ∃ t, horndiniPrephase (onePositive 1) [.point 0] [] 1 [(0, 1)] 1 =
    .ok t ∧
      (dataPoint [invariantOver ⟨"b", .bool⟩] ⟨"inv", [1]⟩ >>= t.output) = .ok true := ⟨_, rfl, rfl⟩
  have hprem : ∀ hc ∈ ([] : List HornConstraint), ∀ x ∈ hc.premises, x ∈ [Ptr.point 0] := by simp
  have hconc : ∀ hc ∈ ([] : List HornConstraint), ∀ c, hc.conclusion = some c →
      c ∈ [Ptr.point 0] := by
    simp
  refine ⟨_, t, rfl, .prephase hsample hprem hconc rfl hrun, hout, fun debug hagree => ?_⟩
  have hsplit : [invariantOver ⟨"b", .bool⟩] = [] ++ invariantOver ⟨"b", .bool⟩ :: [] := rfl
  rw [hsplit] at hsample hagree
  have hbool : ∃ p ∈ (invariantOver ⟨"b", .bool⟩).inParams, p.type = .bool :=
    ⟨⟨"b", .bool⟩, by simp [invariantOver], rfl⟩
  obtain ⟨-, hfalse⟩ :=
    ((prephase_translates debug (by simp) rfl hsample hprem hconc rfl hrun).2 hbool [1]).mp hagree
  cases hout.symm.trans hfalse

end HiceDt.Boogie
