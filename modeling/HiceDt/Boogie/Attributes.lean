import HiceDt.Lib.Dictionary
import HiceDt.Lib.Text
import HiceDt.Lib.Loop
import HiceDt.Lib.Machine
import HiceDt.Chc.LearnerInterface

/-!
# Attributes and rows of the Boogie teacher

Model of `GenerateAttributesFile` and `Datapoint2String`
(`Boogie/Source/Houdini/MLHoudini.cs`, lines 585–689 and 1601–1670). Both list, for
every existential function, its parameters and the sums and differences of any two
integer parameters; the rows are computed in 32-bit arithmetic.

Results:

* `functionAttributes_ok`: the attributes that are declared for a function.
* `datapointRow_eq_iff`: when the row is the one over the integers.
* `datapoint2String_agrees_iff`: when the row agrees with the attributes.
-/

namespace HiceDt.Boogie

open Loop Text Dictionary Machine
open Chc (pairs forall₂_pairs)

/-! ## Functions and expressions -/

/-- The types of the parameters of an existential function. -/
inductive BoogieType where
  | bool
  | int
  | other
deriving DecidableEq, Repr

/-- `Variable`. -/
structure Variable where
  name : String
  type : BoogieType
deriving DecidableEq, Repr

/-- `Function`: an existential function. -/
structure Function where
  name : String
  inParams : List Variable
deriving DecidableEq, Repr

/-- `Expr`; a parameter is given by its position. -/
inductive Expr where
  | ident (index : ℕ) (type : BoogieType)
  | add (a b : Expr)
  | sub (a b : Expr)
  | litBool (b : Bool)
  | litInt (n : ℤ)
  | le (a b : Expr)
  | lt (a b : Expr)
  | not (a : Expr)
  | and (a b : Expr)
  | or (a b : Expr)
deriving DecidableEq, Repr

/-- The mathematical value of an integer expression; `v` has the values of the
    parameters, with 0 and 1 for Boolean ones. -/
def Expr.evalInt (v : List ℤ) : Expr → ℤ
  | .ident index _ => v.getD index 0
  | .add a b => a.evalInt v + b.evalInt v
  | .sub a b => a.evalInt v - b.evalInt v
  | .litInt n => n
  | _ => 0

/-! ## `GenerateAttributesFile` -/

/-- The start of an attribute name. -/
def attrPrefix : String := "$"

/-- What stands between the parts of an attribute name. -/
def attributeDelimiter : String := "$"

/-- `att2Expr.Add (name, expr)`, with the line for the attribute. -/
def addAttribute (att2Expr : List (String × Expr)) (name : String) (expr : Expr) :
    Except Error (List (String × Expr)) :=
  if name ∈ att2Expr.map Prod.fst then .error (.runtimeError "ArgumentException")
  else .ok (att2Expr ++ [(name, expr)])

/-- The name of the attribute for a parameter. -/
def attributeName (functionName : String) (param : Variable) : String :=
  functionName ++ attributeDelimiter ++ param.name

/-- The name of a derived attribute. -/
def derivedName (functionName : String) (sign : String) (p q : Variable) : String :=
  attrPrefix ++ functionName ++ attributeDelimiter ++ p.name ++ sign ++ q.name

/-- The loop body for a parameter (lines 615–635). -/
def addParameter (functionName : String) (att2Expr : List (String × Expr)) (x : Variable × ℕ) :
    Except Error (List (String × Expr)) :=
  if x.1.type = .bool ∨ x.1.type = .int then
    addAttribute att2Expr (attributeName functionName x.1) (.ident x.2 x.1.type)
  else
    .error (.internalError "Existential Functions must have either Boolean or Int typed arguments!")

/-- The loop body for two parameters (lines 650–664). -/
def addDerived (functionName : String) (att2Expr : List (String × Expr))
    (x : (Variable × ℕ) × (Variable × ℕ)) : Except Error (List (String × Expr)) :=
  if x.1.1.type = .int ∧ x.2.1.type = .int then do
    let att2Expr ← addAttribute att2Expr (derivedName functionName "+" x.1.1 x.2.1)
      (.add (.ident x.1.2 .int) (.ident x.2.2 .int))
    addAttribute att2Expr (derivedName functionName "-" x.1.1 x.2.1)
      (.sub (.ident x.1.2 .int) (.ident x.2.2 .int))
  else .ok att2Expr

/-- The attributes of a function. -/
def functionAttributes (f : Function) : Except Error (List (String × Expr)) := do
  let att2Expr ← f.inParams.zipIdx.foldlM (addParameter f.name) []
  (pairs f.inParams.zipIdx).foldlM (addDerived f.name) att2Expr

/-- The attributes file and `attribute2Expr`; the functions have different names. -/
structure Attributes where
  categories : ℕ
  attribute2Expr : List (String × List (String × Expr))
deriving Repr

/-- `GenerateAttributesFile`. -/
def generateAttributesFile (functions : List Function) : Except Error Attributes := do
  let attribute2Expr ← functions.mapM fun f => do
    let att2Expr ← functionAttributes f
    return (f.name, att2Expr)
  return ⟨functions.length, attribute2Expr⟩

/-- The lines of the file for integer attributes: function and name. -/
def Attributes.intAttributes (file : Attributes) : List (String × String) :=
  file.attribute2Expr.flatMap fun entry => entry.2.map fun att => (entry.1, att.1)

/-- `attribute2Expr[functionName][name]`. -/
def Attributes.expr (file : Attributes) (functionName name : String) : Option Expr :=
  (file.attribute2Expr.lookup functionName).bind fun att2Expr => att2Expr.lookup name

/-! ## `Datapoint2String` -/

/-- `dataPoint`. -/
structure DataPoint where
  functionName : String
  value : List ℤ
deriving DecidableEq, Repr

/-- The octagonal constraints for two values (lines 1631–1635); `machine` is the
    arithmetic. -/
def octagonal (machine : ℤ → ℤ) (x : (ℤ × BoogieType) × (ℤ × BoogieType)) : List ℤ :=
  if x.1.2 = .int ∧ x.2.2 = .int then [machine (x.1.1 + x.2.1), machine (x.1.1 - x.2.1)] else []

/-- The fields for the function of the data point (lines 1618–1639). -/
def ownFields (machine : ℤ → ℤ) (f : Function) (value : List ℤ) : Except Error (List ℤ) :=
  if f.inParams.length < value.length then .error (.runtimeError "ArgumentOutOfRangeException")
  else .ok (value ++ (pairs (value.zip (f.inParams.map Variable.type))).flatMap (octagonal machine))

/-- The fields for another function (lines 1645–1661). -/
def otherFields (f : Function) : List ℤ :=
  List.replicate f.inParams.length 0 ++
    (pairs (f.inParams.map Variable.type)).flatMap fun p => if p.1 = .int ∧
    p.2 = .int then [0, 0] else []

/-- The loop over the existential functions; `i` counts them. -/
def rowLoop (machine : ℤ → ℤ) (dp : DataPoint) :
    List Function → ℕ → ℤ → Except Error (ℤ × List ℤ)
  | [], _, category => .ok (category, [])
  | f :: functions, i, category =>
    if f.name = dp.functionName then do
      let fields ← ownFields machine f dp.value
      let (category, rest) ← rowLoop machine dp functions (i + 1) i
      return (category, fields ++ rest)
    else do
      let (category, rest) ← rowLoop machine dp functions (i + 1) category
      return (category, otherFields f ++ rest)

/-- The category and the fields of a row. -/
def rowWith (machine : ℤ → ℤ) (functions : List Function) (dp : DataPoint) :
    Except Error (ℕ × List ℤ) := do
  let (category, fields) ← rowLoop machine dp functions 0 (-1)
  assert (0 ≤ category)
  return (category.toNat, fields)

/-- The row that is written for a data point. -/
def datapointRow (functions : List Function) (dp : DataPoint) : Except Error (ℕ × List ℤ) :=
  rowWith wrap32 functions dp

/-- `Datapoint2String`. -/
def datapoint2String (functions : List Function) (dp : DataPoint) : Except Error (List Char) := do
  let (category, fields) ← datapointRow functions dp
  return decimal category ++ fields.flatMap fun x => ',' :: decimalInt x

/-! ## Declared attributes -/

/-- The attributes for a pair of parameters. -/
def derivedAttributes (functionName : String) (x : (Variable × ℕ) × (Variable × ℕ)) :
    List (String × Expr) :=
  if x.1.1.type = .int ∧ x.2.1.type = .int then
    [(derivedName functionName "+" x.1.1 x.2.1, .add (.ident x.1.2 .int) (.ident x.2.2 .int)),
      (derivedName functionName "-" x.1.1 x.2.1, .sub (.ident x.1.2 .int) (.ident x.2.2 .int))]
  else []

/-- The attributes of a function in the order of the file. -/
def Function.declared (f : Function) : List (String × Expr) :=
  (f.inParams.zipIdx.map fun x => (attributeName f.name x.1, Expr.ident x.2 x.1.type)) ++
    (pairs f.inParams.zipIdx).flatMap (derivedAttributes f.name)

/-- The attributes `l` are added, and names stay different. -/
structure Adds (l att att' : List (String × Expr)) : Prop where
  eq : att' = att ++ l
  nodup : (keys att).Nodup → (keys att').Nodup

theorem Adds.nil (att : List (String × Expr)) : Adds [] att att := ⟨(List.append_nil att).symm, id⟩

theorem Adds.trans {l l' att att' att'' : List (String × Expr)} (h : Adds l att att')
    (h' : Adds l' att' att'') : Adds (l ++ l') att att'' := by
  refine ⟨?_, fun hnd => h'.nodup (h.nodup hnd)⟩
  rw [h'.eq, h.eq, List.append_assoc]

theorem addAttribute_ok {att att' : List (String × Expr)} {name : String} {expr : Expr}
    (h : addAttribute att name expr = .ok att') : Adds [(name, expr)] att att' := by
  unfold addAttribute at h
  split_ifs at h with hmem
  rw [← Except.ok.inj h]
  refine ⟨rfl, fun hnd => ?_⟩
  rw [keys, List.map_append]
  refine List.Nodup.append hnd (List.nodup_singleton _) ?_
  intro x hx hx'
  rw [List.mem_singleton.mp hx'] at hx
  exact hmem hx

theorem addDerived_ok {functionName : String} {att att' : List (String × Expr)}
    {x : (Variable × ℕ) × (Variable × ℕ)} (h : addDerived functionName att x = .ok att') :
    Adds (derivedAttributes functionName x) att att' := by
  unfold addDerived at h
  unfold derivedAttributes
  split_ifs at h with hint
  · obtain ⟨att₁, h₁, h₂⟩ := bind_ok.mp h
    rw [if_pos hint]
    exact (addAttribute_ok h₁).trans (addAttribute_ok h₂)
  · rw [if_neg hint, ← Except.ok.inj h]
    exact .nil att

theorem foldlM_adds {β : Type} {step : List (String × Expr) → β →
    Except Error (List (String × Expr))}
    {added : β → List (String × Expr)}
    (hstep : ∀ att x att', step att x = .ok att' → Adds (added x) att att') {l : List β}
    {att att' : List (String × Expr)} (h : l.foldlM step att = .ok att') :
    Adds (l.flatMap added) att att' := by
  refine foldlM_ok_spec (I := fun done => Adds (done.flatMap added) att)
    (fun done x rest t t' _ hdone hx => ?_) (.nil att) h
  rw [List.flatMap_append, List.flatMap_singleton]
  exact hdone.trans (hstep t x t' hx)

/-- The attributes of a function are the declared ones, with different names. -/
theorem functionAttributes_ok {f : Function} {att : List (String × Expr)}
    (h : functionAttributes f = .ok att) : att = f.declared ∧ (keys att).Nodup := by
  obtain ⟨att₁, h₁, h₂⟩ := bind_ok.mp h
  have hparams : Adds (f.inParams.zipIdx.flatMap fun x =>
      [(attributeName f.name x.1, Expr.ident x.2 x.1.type)]) [] att₁ := by
    refine foldlM_adds (fun att x att' hx => ?_) h₁
    unfold addParameter at hx
    split_ifs at hx
    exact addAttribute_ok hx
  have hall := hparams.trans (foldlM_adds (fun _ _ _ hx => addDerived_ok hx) h₂)
  refine ⟨?_, hall.nodup List.nodup_nil⟩
  rw [hall.eq, List.nil_append, Function.declared, List.map_eq_flatMap]

/-! ## The fields of a row -/

variable {machine : ℤ → ℤ} {dp : DataPoint} {f : Function} {functions : List Function}

/-- The fields for a function. -/
def block (machine : ℤ → ℤ) (dp : DataPoint) (f : Function) : List ℤ :=
  if f.name = dp.functionName then
    dp.value ++ (pairs (dp.value.zip (f.inParams.map Variable.type))).flatMap (octagonal machine)
  else otherFields f

theorem rowLoop_other (h : ∀ g ∈ functions, g.name ≠ dp.functionName) :
    ∀ (i : ℕ) (category : ℤ), rowLoop machine dp functions i category =
      .ok (category, functions.flatMap (block machine dp)) := by
  induction functions with
  | nil =>
    intro i category
    rfl
  | cons g gs ih =>
    intro i category
    have hg := h g List.mem_cons_self
    rw [rowLoop, if_neg hg, ih fun g' hg' => h g' (List.mem_cons_of_mem _ hg'), List.flatMap_cons,
      block, if_neg hg]
    rfl

theorem rowLoop_own {before after : List Function} (hf : f.name = dp.functionName)
    (hbefore : ∀ g ∈ before, g.name ≠ dp.functionName)
    (hafter : ∀ g ∈ after, g.name ≠ dp.functionName)
    (hlen : dp.value.length ≤ f.inParams.length) : ∀ (i : ℕ) (category : ℤ),
    rowLoop machine dp (before ++ f :: after) i category =
      .ok (((i + before.length : ℕ) : ℤ), (before ++ f :: after).flatMap (block machine dp)) := by
  induction before with
  | nil =>
    intro i category
    have hown : ownFields machine f dp.value = .ok (block machine dp f) := by
      rw [ownFields, if_neg (by omega), block, if_pos hf]
    rw [List.nil_append, rowLoop, if_pos hf, hown]
    simp only [bind, Except.bind, rowLoop_other hafter]
    rfl
  | cons g before ih =>
    intro i category
    have hg := hbefore g List.mem_cons_self
    have hrest := ih (fun g' hg' => hbefore g' (List.mem_cons_of_mem _ hg')) (i + 1) category
    rw [List.cons_append, rowLoop, if_neg hg, hrest, List.flatMap_cons, block, if_neg hg,
      List.length_cons]
    have hcount : i + 1 + before.length = i + (before.length + 1) := by omega
    rw [hcount]
    rfl

/-- Only one function has the name of the data point's function. -/
theorem names_ne {before after : List Function}
    (hnd : ((before ++ f :: after).map Function.name).Nodup) (hf : f.name = dp.functionName) :
    (∀ g ∈ before, g.name ≠ dp.functionName) ∧ ∀ g ∈ after, g.name ≠ dp.functionName := by
  rw [List.map_append, List.map_cons] at hnd
  obtain ⟨_, hcons, hdisjoint⟩ := List.nodup_append.mp hnd
  refine ⟨fun g hg heq => ?_, fun g hg heq => ?_⟩
  · exact hdisjoint g.name (List.mem_map_of_mem hg) f.name List.mem_cons_self (heq.trans hf.symm)
  · have hnot := (List.nodup_cons.mp hcons).1
    rw [hf, ← heq] at hnot
    exact hnot (List.mem_map_of_mem hg)

/-- The row of a data point: the category is the position of its function. -/
theorem rowWith_eq {before after : List Function}
    (hnd : ((before ++ f :: after).map Function.name).Nodup)
    (hf : f.name = dp.functionName) (hlen : dp.value.length ≤ f.inParams.length) :
    rowWith machine (before ++ f :: after) dp =
      .ok (before.length, (before ++ f :: after).flatMap (block machine dp)) := by
  obtain ⟨hbefore, hafter⟩ := names_ne hnd hf
  have hloop : rowLoop machine dp (before ++ f :: after) 0 (-1) =
      .ok (((0 + before.length : ℕ) : ℤ), (before ++ f :: after).flatMap (block machine dp)) :=
    rowLoop_own hf hbefore hafter hlen 0 (-1)
  rw [Nat.zero_add] at hloop
  simp only [rowWith, hloop, bind, Except.bind]
  rfl

/-! ## Fields and attributes -/

theorem forall₂_params {v : List ℤ} (hlen : v.length = f.inParams.length) :
    List.Forall₂ (fun (x : Variable × ℕ) (y : ℤ × BoogieType) => y.2 = x.1.type ∧
      y.1 = v.getD x.2 0)
      f.inParams.zipIdx (v.zip (f.inParams.map Variable.type)) := by
  refine List.forall₂_iff_get.mpr ⟨by simp [hlen], fun i h₁ h₂ => ?_⟩
  have hi : i < v.length := by simpa [hlen] using h₂
  simp [hi]

/-- The fields over the integers are the values of the attributes. -/
theorem ownFields_agree {v : List ℤ} (hlen : v.length = f.inParams.length) :
    List.Forall₂ (fun att x => x = Expr.evalInt v att.2) f.declared
      (v ++ (pairs (v.zip (f.inParams.map Variable.type))).flatMap (octagonal id)) := by
  have hparams := forall₂_params hlen
  refine List.rel_append ?_ ?_
  · have hfst : v = (v.zip (f.inParams.map Variable.type)).map Prod.fst := by
      rw [List.map_fst_zip (by simp [hlen])]
    nth_rewrite 2 [hfst]
    rw [List.forall₂_map_left_iff, List.forall₂_map_right_iff]
    exact hparams.imp fun _ _ h => h.2
  · refine List.rel_flatMap (forall₂_pairs hparams) ?_
    rintro x y ⟨⟨ht, hv⟩, ⟨ht', hv'⟩⟩
    rw [derivedAttributes, octagonal, ht, ht', hv, hv']
    split_ifs
    · exact .cons rfl (.cons rfl .nil)
    · exact .nil

/-- The fields for other functions are zero, one for each attribute. -/
theorem otherFields_agree (f : Function) :
    List.Forall₂ (fun (_ : String × Expr) x => x = 0) f.declared (otherFields f) := by
  have htypes : List.Forall₂ (fun (x : Variable × ℕ) t => t = x.1.type) f.inParams.zipIdx
      (f.inParams.map Variable.type) := by
    refine List.forall₂_iff_get.mpr ⟨by simp, fun i h₁ h₂ => ?_⟩
    simp
  refine List.rel_append ?_ ?_
  · refine forall₂_replicate (by simp) fun _ _ => rfl
  · refine List.rel_flatMap (forall₂_pairs htypes) ?_
    rintro x y ⟨ht, ht'⟩
    simp only [derivedAttributes, ht, ht']
    split_ifs
    · exact .cons rfl (.cons rfl .nil)
    · exact .nil

/-- A field agrees with an attribute: it is the value of the expression for an attribute
    of the data point's function, and zero otherwise. -/
def Agrees (file : Attributes) (dp : DataPoint) (att : String × String) (x : ℤ) : Prop :=
  if att.1 = dp.functionName then ∃ e, file.expr att.1 att.2 = some e ∧ x = e.evalInt dp.value
  else x = 0

theorem Agrees.unique {file : Attributes} {att : String × String} {x y : ℤ}
    (hx : Agrees file dp att x) (hy : Agrees file dp att y) : x = y := by
  unfold Agrees at hx hy
  split_ifs at hx hy
  · obtain ⟨e, he, rfl⟩ := hx
    obtain ⟨e', he', rfl⟩ := hy
    rw [Option.some.inj (he.symm.trans he')]
  · rw [hx, hy]

theorem generateAttributesFile_ok {file : Attributes}
    (h : generateAttributesFile functions = .ok file) :
    file.categories = functions.length ∧
    List.Forall₂ (fun f entry => entry = (f.name, f.declared) ∧ (keys f.declared).Nodup) functions
      file.attribute2Expr := by
  obtain ⟨entries, hentries, h⟩ := bind_ok.mp h
  rw [← Except.ok.inj h]
  refine ⟨rfl, (mapM_ok hentries).imp fun f entry hf => ?_⟩
  obtain ⟨att, hatt, hret⟩ := bind_ok.mp hf
  obtain ⟨rfl, hnd⟩ := functionAttributes_ok hatt
  exact ⟨(Except.ok.inj hret).symm, hnd⟩

theorem keys_attribute2Expr {entries : List (String × List (String × Expr))}
    (h : List.Forall₂ (fun f entry => entry = (Function.name f, f.declared) ∧
      (keys f.declared).Nodup) functions entries) : keys entries = functions.map Function.name := by
  induction h with
  | nil => rfl
  | cons hf _ ih =>
    show _ :: keys _ = _
    rw [ih, hf.1, List.map_cons]

/-- Every declared attribute is found. -/
theorem expr_declared {file : Attributes} (hnd : (functions.map Function.name).Nodup)
    (h : generateAttributesFile functions = .ok file) (hf : f ∈ functions) {att : String × Expr}
    (hatt : att ∈ f.declared) : file.expr f.name att.1 = some att.2 := by
  obtain ⟨_, hentries⟩ := generateAttributesFile_ok h
  have hkeys : (keys file.attribute2Expr).Nodup := by rwa [keys_attribute2Expr hentries]
  have hentry : (f.name, f.declared) ∈ file.attribute2Expr ∧ (keys f.declared).Nodup := by
    obtain ⟨i, hi, rfl⟩ := List.getElem_of_mem hf
    have hi' : i < file.attribute2Expr.length := hentries.length_eq ▸ hi
    obtain ⟨heq, hnd'⟩ := hentries.get hi hi'
    exact ⟨heq ▸ List.get_mem _ _, hnd'⟩
  rw [Attributes.expr, lookup_of_mem hkeys hentry.1, Option.bind_some]
  exact lookup_of_mem hentry.2 hatt

/-- The row over the integers agrees with the attributes. -/
theorem fields_agree {file : Attributes} (hnd : (functions.map Function.name).Nodup)
    (h : generateAttributesFile functions = .ok file)
    (hlen : ∀ g ∈ functions, g.name = dp.functionName → dp.value.length = g.inParams.length) :
    List.Forall₂ (Agrees file dp) file.intAttributes (functions.flatMap (block id dp)) := by
  obtain ⟨_, hentries⟩ := generateAttributesFile_ok h
  have hmem : List.Forall₂ (fun (entry : String × List (String × Expr)) f =>
      f ∈ functions ∧ entry = (Function.name f, f.declared)) file.attribute2Expr functions := by
    refine List.Forall₂.flip ((List.forall₂_and_left functions _).mpr ⟨fun f hf => hf, ?_⟩)
    exact hentries.imp fun _ _ he => he.1
  refine List.rel_flatMap hmem ?_
  rintro entry f ⟨hf, rfl⟩
  rw [List.forall₂_map_left_iff, block]
  by_cases hname : f.name = dp.functionName
  · rw [if_pos hname]
    have hown := (List.forall₂_and_left f.declared _).mpr
      ⟨fun att hatt => hatt, ownFields_agree (hlen f hf hname)⟩
    refine hown.imp fun att x hx => ?_
    unfold Agrees
    rw [if_pos hname]
    exact ⟨att.2, expr_declared hnd h hf hx.1, hx.2⟩
  · rw [if_neg hname]
    refine (otherFields_agree f).imp fun att x hx => ?_
    unfold Agrees
    rwa [if_neg hname]

/-! ## Rows in 32-bit arithmetic -/

/-- The sums and differences of the integer arguments fit into 32 bits. -/
def NoOverflow (f : Function) (v : List ℤ) : Prop :=
  ∀ x ∈ pairs (v.zip (f.inParams.map Variable.type)), x.1.2 = .int → x.2.2 = .int →
    IsInt32 (x.1.1 + x.2.1) ∧ IsInt32 (x.1.1 - x.2.1)

theorem flatMap_octagonal_iff {l : List ((ℤ × BoogieType) × (ℤ × BoogieType))} :
    l.flatMap (octagonal wrap32) = l.flatMap (octagonal id) ↔
      ∀ x ∈ l, x.1.2 = .int → x.2.2 = .int → IsInt32 (x.1.1 + x.2.1) ∧ IsInt32 (x.1.1 - x.2.1) := by
  induction l with
  | nil => simp
  | cons x l ih =>
    rw [List.flatMap_cons, List.flatMap_cons, List.forall_mem_cons, ← ih]
    by_cases hint : x.1.2 = .int ∧ x.2.2 = .int
    · rw [octagonal, octagonal, if_pos hint, if_pos hint]
      simp [hint.1, hint.2, wrap32_eq_iff, and_assoc]
    · rw [octagonal, octagonal, if_neg hint, if_neg hint]
      simp only [List.nil_append, iff_and_self]
      intro _ h₁ h₂
      exact absurd ⟨h₁, h₂⟩ hint

/-- The fields are those over the integers iff nothing overflows. -/
theorem datapointRow_eq_iff {before after : List Function}
    (hnd : ((before ++ f :: after).map Function.name).Nodup) (hf : f.name = dp.functionName) :
    (before ++ f :: after).flatMap (block wrap32 dp) = (before ++ f :: after).flatMap
      (block id dp) ↔ NoOverflow f dp.value := by
  have hsame : ∀ g : Function, g.name ≠ dp.functionName → block wrap32 dp g = block id dp g := by
    intro g hg
    rw [block, block, if_neg hg, if_neg hg]
  obtain ⟨hbefore, hafter⟩ := names_ne hnd hf
  have hpre : before.flatMap (block wrap32 dp) = before.flatMap (block id dp) :=
    List.flatMap_congr fun g hg => hsame g (hbefore g hg)
  have hpost : after.flatMap (block wrap32 dp) = after.flatMap (block id dp) :=
    List.flatMap_congr fun g hg => hsame g (hafter g hg)
  rw [List.flatMap_append, List.flatMap_append, List.flatMap_cons, List.flatMap_cons, hpre, hpost,
    List.append_cancel_left_eq, List.append_cancel_right_eq, block, block, if_pos hf, if_pos hf,
    List.append_cancel_left_eq, flatMap_octagonal_iff]
  rfl

/-- The row that is written for the data point has one field for each integer attribute,
    and the fields agree with the attributes. -/
def RowAgrees (functions : List Function) (file : Attributes) (dp : DataPoint) : Prop :=
  ∃ category fields, datapointRow functions dp = .ok (category, fields) ∧
    List.Forall₂ (Agrees file dp) file.intAttributes fields

/-- The row agrees with the attributes iff the sums and differences of the integer
    arguments fit into 32 bits. -/
theorem datapoint2String_agrees_iff (functions : List Function)
    (hnd : (functions.map Function.name).Nodup) (file : Attributes)
    (hfile : generateAttributesFile functions = .ok file) (f : Function) (hmem : f ∈ functions)
    (dp : DataPoint) (hf : f.name = dp.functionName)
    (hlen : dp.value.length = f.inParams.length) :
    RowAgrees functions file dp ↔ NoOverflow f dp.value := by
  obtain ⟨before, after, rfl⟩ := List.append_of_mem hmem
  have hrow : datapointRow (before ++ f :: after) dp = .ok
      (before.length, (before ++ f :: after).flatMap (block wrap32 dp)) := rowWith_eq hnd hf hlen.le
  have hother : ∀ g ∈ before ++ f :: after, g.name = dp.functionName →
      dp.value.length = g.inParams.length := by
    obtain ⟨hbefore, hafter⟩ := names_ne hnd hf
    intro g hg hname
    rcases List.mem_append.mp hg with hg | hg
    · exact absurd hname (hbefore g hg)
    · rcases List.mem_cons.mp hg with rfl | hg
      · exact hlen
      · exact absurd hname (hafter g hg)
  have hagree := fields_agree hnd hfile hother
  rw [← datapointRow_eq_iff hnd hf]
  constructor
  · rintro ⟨category, fields, hrun, hfields⟩
    obtain ⟨rfl, rfl⟩ := Prod.mk.inj (Except.ok.inj (hrow.symm.trans hrun))
    exact List.right_unique_forall₂' (fun _ _ _ hx hy => hx.unique hy) hfields hagree
  · intro heq
    exact ⟨_, _, hrow, heq ▸ hagree⟩

/-- An invariant over two integers. -/
def invariantXY : Function := ⟨"inv", [⟨"x", .int⟩, ⟨"y", .int⟩]⟩

/-- Its attributes. -/
def attributesXY : Attributes where
  categories := 1
  attribute2Expr := [("inv", [("inv$x", .ident 0 .int), ("inv$y", .ident 1 .int),
    ("$inv$x+y", .add (.ident 0 .int) (.ident 1 .int)),
    ("$inv$x-y", .sub (.ident 0 .int) (.ident 1 .int))])]

theorem generateAttributesFile_invariantXY :
    generateAttributesFile [invariantXY] = .ok attributesXY := by
  rfl

theorem invariantXY_fits : NoOverflow invariantXY [3, -2] := by
  intro x hx _ _
  obtain rfl : x = ((3, .int), (-2, .int)) := by simpa [invariantXY, pairs] using hx
  simp [IsInt32]

theorem datapoint2String_agrees_iff_small : NoOverflow invariantXY [3, -2] ∧
    RowAgrees [invariantXY] attributesXY ⟨"inv", [3, -2]⟩ := by
  refine ⟨invariantXY_fits, ?_⟩
  exact (datapoint2String_agrees_iff [invariantXY] (by simp) attributesXY
    generateAttributesFile_invariantXY invariantXY (by simp) ⟨"inv", [3, -2]⟩ rfl rfl).mpr
    invariantXY_fits

/-- The sum of two large arguments wraps around. -/
theorem datapoint2String_overflows :
    datapointRow [invariantXY] ⟨"inv", [2147483647, 1]⟩ =
      .ok (0, [2147483647, 1, -2147483648, 2147483646]) ∧
    ¬ RowAgrees [invariantXY] attributesXY ⟨"inv", [2147483647, 1]⟩ := by
  have hrow : datapointRow [invariantXY] ⟨"inv", [2147483647, 1]⟩ =
      .ok (0, [2147483647, 1, -2147483648, 2147483646]) := by rfl
  refine ⟨hrow, ?_⟩
  rintro ⟨category, fields, hrun, hfields⟩
  obtain ⟨rfl, rfl⟩ := Prod.mk.inj (Except.ok.inj (hrow.symm.trans hrun))
  have hsum := hfields.get (i := 2) (by decide) (by decide)
  obtain ⟨e, he, hx⟩ : ∃ e, attributesXY.expr "inv" "$inv$x+y" = some e ∧
      (-2147483648 : ℤ) = e.evalInt [2147483647, 1] := hsum
  have hexpr : attributesXY.expr "inv" "$inv$x+y" =
      some (.add (.ident 0 .int) (.ident 1 .int)) := by rfl
  rw [hexpr] at he
  rw [← Option.some.inj he] at hx
  simp [Expr.evalInt] at hx

end HiceDt.Boogie
