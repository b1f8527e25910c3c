import HiceDt.Boogie.Attributes
import HiceDt.Learner.DecisionTree

/-!
# Trees of the Boogie teacher

Model of `json_visitor` (`hice-dt/src/json_visitor.cpp`), of `TreeNode` and of
`DecisionTreeDomain.constructModel` (`Boogie/Source/Houdini/HornLearning.cs`): the learner
writes its tree, and the teacher turns the subtree of every existential function into an
expression. Assertions of the teacher are checked in a debug build only.

Results:

* `makeConjunction_evalBool`, `makeDisjunction_evalBool`: the value of the expressions.
* `pathFormulas_ok`: the expression says where a walk through the tree ends.
* `thresholds_of_pathFormulas`: if the assertions hold, Boolean attributes are cut at zero.
-/

namespace HiceDt.Boogie

open Loop Dictionary

/-! ## Expressions -/

namespace Expr

/-- `ShallowType`. -/
def shallowType : Expr → BoogieType
  | .ident _ type => type
  | .add _ _ | .sub _ _ | .litInt _ => .int
  | _ => .bool

/-- The truth of a Boolean expression; a Boolean parameter is true if its value is 1. -/
def evalBool (v : List ℤ) : Expr → Bool
  | .ident index _ => v.getD index 0 = 1
  | .litBool b => b
  | .le a b => a.evalInt v ≤ b.evalInt v
  | .lt a b => a.evalInt v < b.evalInt v
  | .not a => !a.evalBool v
  | .and a b => a.evalBool v && b.evalBool v
  | .or a b => a.evalBool v || b.evalBool v
  | _ => false

/-- `Expr.And` (`Core/AbsyExpr.cs`, lines 147–160). -/
def mkAnd (a b : Expr) : Expr :=
  if a = .litBool true then b
  else if b = .litBool true then a
  else if a = .litBool false ∨ b = .litBool false then .litBool false
  else .and a b

/-- `Expr.Or` (lines 161–174). -/
def mkOr (a b : Expr) : Expr :=
  if a = .litBool false then b
  else if b = .litBool false then a
  else if a = .litBool true ∨ b = .litBool true then .litBool true
  else .or a b

/-- `Expr.Not` (lines 175–215). -/
def mkNot : Expr → Expr
  | .litBool b => .litBool !b
  | .not a => a
  | .lt a b => .le b a
  | .le a b => .lt b a
  | a => .not a

variable {v : List ℤ}

@[simp] theorem evalBool_mkAnd (a b : Expr) :
    (mkAnd a b).evalBool v = (a.evalBool v && b.evalBool v) := by
  unfold mkAnd
  split_ifs with ha hb hfalse
  · rw [ha]
    rfl
  · rw [hb, evalBool, Bool.and_true]
  · rcases hfalse with rfl | rfl
    · rfl
    · rw [evalBool, Bool.and_false]
  · rfl

@[simp] theorem evalBool_mkOr (a b : Expr) :
    (mkOr a b).evalBool v = (a.evalBool v || b.evalBool v) := by
  unfold mkOr
  split_ifs with ha hb htrue
  · rw [ha]
    rfl
  · rw [hb, evalBool, Bool.or_false]
  · rcases htrue with rfl | rfl
    · rfl
    · rw [evalBool, Bool.or_true]
  · rfl

@[simp] theorem evalBool_mkNot (a : Expr) : (mkNot a).evalBool v = !a.evalBool v := by
  cases a with
  | litBool b => rfl
  | not a =>
    show a.evalBool v = !!a.evalBool v
    rw [Bool.not_not]
  | lt a b =>
    show decide (b.evalInt v ≤ a.evalInt v) = !decide (a.evalInt v < b.evalInt v)
    rw [← decide_not]
    exact decide_eq_decide.mpr not_lt.symm
  | le a b =>
    show decide (b.evalInt v < a.evalInt v) = !decide (a.evalInt v ≤ b.evalInt v)
    rw [← decide_not]
    exact decide_eq_decide.mpr not_le.symm
  | ident => rfl
  | add => rfl
  | sub => rfl
  | litInt => rfl
  | and => rfl
  | or => rfl

end Expr

/-! ## `TreeNode` -/

/-- `TreeNode`: a null reference, a node whose `children` are null, or a node with an
    array of children. -/
inductive TreeNode where
  | null
  | leaf (attr : String) (cut : ℤ) (classification : Bool)
  | inner (attr : String) (cut : ℤ) (classification : Bool) (length : ℕ) (children : ℕ → TreeNode)

/-- Whether the reference is null. -/
def TreeNode.isNull : TreeNode → Bool
  | .null => true
  | _ => false

/-- `names()[attribute]`. -/
def nameAt (names : List String) (attr : ℕ) : Except Error String :=
  match names[attr]? with
  | some name => .ok name
  | none => .error .undefinedBehaviour

/-- `json_visitor`; the teacher reads what is written. -/
def jsonVisitor (categoricalNames intNames : List String) : Tree → Except Error TreeNode
  | .null => .error .undefinedBehaviour
  | .leaf b => .ok (.leaf "" 0 b)
  | .int attr threshold left right => do
    let name ← nameAt intNames attr
    let left ← jsonVisitor categoricalNames intNames left
    let right ← jsonVisitor categoricalNames intNames right
    return .inner name threshold true 2 fun i => if i = 0 then left else right
  | .categorical attr n children => do
    let name ← nameAt categoricalNames attr
    let nodes ← (List.range n).mapM fun i =>
      if (children i).isNull then .ok .null
      else jsonVisitor categoricalNames intNames (children i)
    return .inner name 0 true n fun i => nodes.getD i .null

/-! ## `constructBoogieExpr` -/

/-- `Debug.Assert (b)`. -/
def debugAssert (debug b : Bool) : Except Error Unit := if debug then assert b else .ok ()

/-- `makeDisjunction` (lines 164–184). -/
def makeDisjunction : List Expr → Expr
  | [] => .litBool false
  | e :: disjuncts => disjuncts.foldl .mkOr e

/-- `makeConjunction` (lines 192–211). -/
def makeConjunction : List Expr → Expr
  | [] => .litBool true
  | e :: conjuncts => conjuncts.foldl .mkAnd e

/-- The recursive `constructBoogieExpr` (lines 93–156): the formulas for the paths to leaves
    labelled with true. -/
def pathFormulas (debug : Bool) (attr2Expr : List (String × Expr)) :
    TreeNode → List Expr → Except Error (List Expr)
  | .null, _ => do
    debugAssert debug false
    .error (.runtimeError "NullReferenceException")
  | .leaf _ _ classification, pathFromRoot =>
    .ok (if classification then [makeConjunction pathFromRoot] else [])
  | .inner attr cut _ length children, pathFromRoot => do
    debugAssert debug (attr2Expr.lookup attr).isSome
    match attr2Expr.lookup attr with
    | none => .error (.runtimeError "KeyNotFoundException")
    | some attrExpr =>
      match attrExpr.shallowType with
      | .bool => do
        debugAssert debug (length = 2 && !(children 0).isNull && !(children 1).isNull)
        debugAssert debug (cut = 0)
        if length < 2 then .error (.runtimeError "IndexOutOfRangeException")
        else do
          let left ← pathFormulas debug attr2Expr (children 0) (pathFromRoot ++ [.mkNot attrExpr])
          let right ← pathFormulas debug attr2Expr (children 1) (pathFromRoot ++ [attrExpr])
          return left ++ right
      | .int => do
        debugAssert debug (length = 2 && !(children 0).isNull && !(children 1).isNull)
        if length < 2 then .error (.runtimeError "IndexOutOfRangeException")
        else do
          let predicate := Expr.le attrExpr (.litInt cut)
          let left ← pathFormulas debug attr2Expr (children 0) (pathFromRoot ++ [predicate])
          let right ← pathFormulas debug attr2Expr (children 1) (pathFromRoot ++ [.mkNot predicate])
          return left ++ right
      | .other => .error (.internalError
          "While constructing a Boogie expression from JSON, encountered a unknown type of attribute")

/-- `constructBoogieExpr` (lines 50–63). -/
def constructBoogieExpr (debug : Bool) (attr2Expr : List (String × Expr)) (node : TreeNode) :
    Except Error Expr := do
  let formulas ← pathFormulas debug attr2Expr node []
  return makeDisjunction formulas

/-- The categorical attribute. -/
def attributeNameOfExistentialFunctions : String := "$func"

/-- `constructModel` (lines 311–363): the new implementation of a function. -/
def constructModel (debug : Bool) (functionName : String) (root : TreeNode)
    (attribute2Expr : List (String × List (String × Expr))) (functionID : List (String × ℕ)) :
    Except Error Expr := do
  debugAssert debug (attribute2Expr.lookup functionName).isSome
  debugAssert debug (functionID.lookup functionName).isSome
  match root with
  | .null => .error (.runtimeError "NullReferenceException")
  | .leaf attr _ _ =>
    if attr ≠ attributeNameOfExistentialFunctions then
      .error (.internalError "Root node of decision tree must be a split on the existential functions")
    else .error (.runtimeError "NullReferenceException")
  | .inner attr _ _ length children =>
    if attr ≠ attributeNameOfExistentialFunctions then
      .error (.internalError "Root node of decision tree must be a split on the existential functions")
    else
      match functionID.lookup functionName, attribute2Expr.lookup functionName with
      | some i, some attr2Expr =>
        if length ≤ i then .error (.runtimeError "IndexOutOfRangeException")
        else if (children i).isNull then .ok (.litBool false)
        else constructBoogieExpr debug attr2Expr (children i)
      | _, _ => .error (.runtimeError "KeyNotFoundException")

/-! ## The value of the expression -/

variable {v : List ℤ}

theorem makeDisjunction_evalBool (disjuncts : List Expr) :
    (makeDisjunction disjuncts).evalBool v = disjuncts.any (Expr.evalBool v) := by
  have hfold : ∀ (l : List Expr) (e : Expr),
      (l.foldl Expr.mkOr e).evalBool v = (e.evalBool v || l.any (Expr.evalBool v)) := by
    intro l
    induction l with
    | nil =>
      intro e
      rw [List.foldl_nil, List.any_nil, Bool.or_false]
    | cons a l ih =>
      intro e
      rw [List.foldl_cons, ih, Expr.evalBool_mkOr, List.any_cons, Bool.or_assoc]
  cases disjuncts with
  | nil => rfl
  | cons e l => exact hfold l e

theorem makeConjunction_evalBool (conjuncts : List Expr) :
    (makeConjunction conjuncts).evalBool v = conjuncts.all (Expr.evalBool v) := by
  have hfold : ∀ (l : List Expr) (e : Expr),
      (l.foldl Expr.mkAnd e).evalBool v = (e.evalBool v && l.all (Expr.evalBool v)) := by
    intro l
    induction l with
    | nil =>
      intro e
      rw [List.foldl_nil, List.all_nil, Bool.and_true]
    | cons a l ih =>
      intro e
      rw [List.foldl_cons, ih, Expr.evalBool_mkAnd, List.all_cons, Bool.and_assoc]
  cases conjuncts with
  | nil => rfl
  | cons e l => exact hfold l e

/-- The attribute `attr` of the learner stands for the expression `e`. -/
def Reads (intNames : List String) (attr2Expr : List (String × Expr)) (attr : ℕ) (e : Expr) :
    Prop :=
  ∃ name, intNames[attr]? = some name ∧ attr2Expr.lookup name = some e ∧ e.shallowType ≠ .other

/-- The test that the teacher makes for a cut: the cut of a Boolean attribute is not
    looked at. -/
def Expr.test (v : List ℤ) (e : Expr) (cut : ℤ) : Bool :=
  if e.shallowType = .bool then !e.evalBool v else e.evalInt v ≤ cut

/-- The literal on the edge to the left child. -/
def Expr.edge (e : Expr) (cut : ℤ) : Expr :=
  if e.shallowType = .bool then .mkNot e else .le e (.litInt cut)

theorem evalBool_edge (e : Expr) (cut : ℤ) : (e.edge cut).evalBool v = e.test v cut := by
  unfold Expr.edge Expr.test
  split_ifs
  · exact Expr.evalBool_mkNot e
  · rfl

variable {debug : Bool} {categoricalNames intNames : List String} {attr2Expr : List (String × Expr)}
  {expr : ℕ → Expr} {attr : ℕ} {cut : ℤ} {left right : TreeNode} {pathFromRoot : List Expr}

/-- An inner node for an attribute: the assertion on the cut, then the two children. -/
theorem pathFormulas_inner {name : String} {e : Expr} (hname : attr2Expr.lookup name = some e)
    (htype : e.shallowType ≠ .other) (hleft : left.isNull = false) (hright : right.isNull = false) :
    pathFormulas debug attr2Expr (.inner name cut true 2 fun i => if i = 0 then left else right)
        pathFromRoot = (do
      debugAssert debug (e.shallowType = .bool → cut = 0)
      let l ← pathFormulas debug attr2Expr left (pathFromRoot ++ [e.edge cut])
      let r ← pathFormulas debug attr2Expr right
        (pathFromRoot ++ [if e.shallowType = .bool then e else .mkNot (e.edge cut)])
      return l ++ r) := by
  have htrue : debugAssert debug true = .ok () := by
    unfold debugAssert
    split_ifs <;> rfl
  rw [pathFormulas]
  cases h : e.shallowType with
  | bool =>
    have hedge : e.edge cut = .mkNot e := by rw [Expr.edge, if_pos h]
    simp [hname, h, hleft, hright, htrue, hedge, bind, Except.bind]
  | int =>
    have hedge : e.edge cut = .le e (.litInt cut) := by rw [Expr.edge, if_neg (by rw [h]; decide)]
    simp [hname, h, hleft, hright, htrue, hedge, bind, Except.bind]
  | other => exact absurd h htype

/-- The value of the literal on the edge to the right child. -/
theorem evalBool_right (e : Expr) (cut : ℤ) :
    (if e.shallowType = .bool then e else .mkNot (e.edge cut)).evalBool v = !e.test v cut := by
  split_ifs with h
  · rw [Expr.test, if_pos h, Bool.not_not]
  · rw [Expr.evalBool_mkNot, evalBool_edge]

theorem jsonVisitor_int {name : String} {l r : Tree} (hname : intNames[attr]? = some name)
    (hleft : jsonVisitor categoricalNames intNames l = .ok left)
    (hright : jsonVisitor categoricalNames intNames r = .ok right) :
    jsonVisitor categoricalNames intNames (.int attr cut l r) =
      .ok (.inner name cut true 2 fun i => if i = 0 then left else right) := by
  simp only [jsonVisitor, nameAt, hname, hleft, hright, bind, Except.bind]
  rfl

/-- If the cuts of Boolean attributes are zero or assertions are not checked, the formulas
    say which leaf a walk through the tree reaches. -/
theorem pathFormulas_ok (debug : Bool) (categoricalNames : List String) {t : Tree}
    (ht : t.isIntTree = true)
    (hreads : t.Thresholds fun attr _ => Reads intNames attr2Expr attr (expr attr))
    (hcut : debug = true → t.Thresholds fun attr cut => (expr attr).shallowType = .bool → cut = 0) :
    ∃ node, jsonVisitor categoricalNames intNames t = .ok node ∧ node.isNull = false ∧
      ∀ pathFromRoot, ∃ formulas, pathFormulas debug attr2Expr node pathFromRoot = .ok formulas ∧
        ∀ v, formulas.any (Expr.evalBool v) = (pathFromRoot.all (Expr.evalBool v) &&
          t.walk fun attr cut => some ((expr attr).test v cut)) := by
  induction t with
  | null => cases ht
  | categorical attr n children ih => cases ht
  | leaf b =>
    refine ⟨.leaf "" 0 b, rfl, rfl, fun pathFromRoot => ⟨_, rfl, fun v => ?_⟩⟩
    cases b with
    | true =>
      rw [if_pos rfl, List.any_cons, makeConjunction_evalBool, List.any_nil, Bool.or_false]
      exact (Bool.and_true _).symm
    | false => exact (Bool.and_false _).symm
  | int attr cut l r ihl ihr =>
    rw [Tree.isIntTree, Bool.and_eq_true] at ht
    obtain ⟨⟨name, hname, hlookup, htype⟩, hreadsl, hreadsr⟩ := hreads
    obtain ⟨left, hleft, hnl, hpathl⟩ := ihl ht.1 hreadsl fun h => (hcut h).2.1
    obtain ⟨right, hright, hnr, hpathr⟩ := ihr ht.2 hreadsr fun h => (hcut h).2.2
    refine ⟨_, jsonVisitor_int hname hleft hright, rfl, fun pathFromRoot => ?_⟩
    have hassert : debugAssert debug ((expr attr).shallowType = .bool → cut = 0) = .ok () := by
      unfold debugAssert
      split_ifs with h
      · rw [decide_eq_true (hcut h).1]
        rfl
      · rfl
    obtain ⟨fl, hfl, hvl⟩ := hpathl (pathFromRoot ++ [(expr attr).edge cut])
    obtain ⟨fr, hfr, hvr⟩ := hpathr (pathFromRoot ++
      [if (expr attr).shallowType = .bool then expr attr else .mkNot ((expr attr).edge cut)])
    refine ⟨fl ++ fr, ?_, fun v => ?_⟩
    · rw [pathFormulas_inner hlookup htype hnl hnr, hassert]
      simp only [bind, Except.bind, hfl, hfr]
      rfl
    · rw [List.any_append, hvl, hvr, List.all_append, List.all_append, List.all_cons, List.all_nil,
        List.all_cons, List.all_nil, evalBool_edge, evalBool_right, Tree.walk]
      cases (expr attr).test v cut with
      | true => simp
      | false => simp

/-- If the assertions hold, the cuts of Boolean attributes are zero. -/
theorem thresholds_of_pathFormulas {t : Tree} (ht : t.isIntTree = true)
    (hreads : t.Thresholds fun attr _ => Reads intNames attr2Expr attr (expr attr)) :
    ∀ {node : TreeNode} {pathFromRoot formulas : List Expr},
      jsonVisitor categoricalNames intNames t = .ok node →
      pathFormulas true attr2Expr node pathFromRoot = .ok formulas →
      t.Thresholds fun attr cut => (expr attr).shallowType = .bool → cut = 0 := by
  induction t with
  | null => cases ht
  | categorical attr n children ih => cases ht
  | leaf b =>
    intro node pathFromRoot formulas _ _
    trivial
  | int attr cut l r ihl ihr =>
    intro node pathFromRoot formulas hnode hrun
    rw [Tree.isIntTree, Bool.and_eq_true] at ht
    obtain ⟨⟨name, hname, hlookup, htype⟩, hreadsl, hreadsr⟩ := hreads
    obtain ⟨left, hleft, hnl, -⟩ :=
      pathFormulas_ok false categoricalNames ht.1 hreadsl fun h => by cases h
    obtain ⟨right, hright, hnr, -⟩ :=
      pathFormulas_ok false categoricalNames ht.2 hreadsr fun h => by cases h
    obtain rfl := Except.ok.inj ((jsonVisitor_int hname hleft hright).symm.trans hnode)
    rw [pathFormulas_inner hlookup htype hnl hnr] at hrun
    obtain ⟨u, hassert, hrun⟩ := bind_ok.mp hrun
    obtain ⟨fl, hfl, hrun⟩ := bind_ok.mp hrun
    obtain ⟨fr, hfr, -⟩ := bind_ok.mp hrun
    refine ⟨?_, ihl ht.1 hreadsl hleft hfl, ihr ht.2 hreadsr hright hfr⟩
    exact of_decide_eq_true (assert_eq_ok hassert)

end HiceDt.Boogie
