import Mathlib.Data.List.GetD
import HiceDt.Chc.LearnerInterface

/-!
# Conjectures from decision trees

Model of `dt_to_z3_exp` (`chc_verifier/include/dt_to_z3_exp.h`), which turns a
decision tree into one conjecture per relation. At an integer attribute the edges of
a node become `<=` and `>`; at a Boolean attribute both edges become a conjunction
of the attribute and a Boolean literal, so that neither of them holds if the
argument is false.

Results:

* `evalBool_getZ3ExpInt`: the meaning of the expression of a subtree as a walk.
* `walk_readTest_iff`: when this walk reaches a leaf with output true.
* `getUnorderedMap_iff`: the trees and arguments that are translated correctly.
-/

namespace HiceDt.Chc

open HiceDt Loop

/-! ## The translation -/

/-- The expression for the left edge of a node (lines 167–185 and 191–209). -/
def leftTest (attr : Expr) (threshold : ℤ) : Expr :=
  if attr.isBool then .and attr (.boolVal (threshold = 1)) else .le attr threshold

/-- The expression for the right edge of a node (lines 219–238 and 244–262). -/
def rightTest (attr : Expr) (threshold : ℤ) : Expr :=
  if attr.isBool then .and attr (.boolVal (threshold ≠ 1)) else .gt attr threshold

/-- `_integer_identifier_to_attribute.find (attribute)->second`. -/
def findAttribute (attributes : List Expr) (attr : ℕ) : Except Error Expr :=
  match attributes[attr]? with
  | some e => .ok e
  | none => .error .undefinedBehaviour

/-- The expression for a child of a node, given the expression for its subtree and
    for the edge to it; `none` if the child is a leaf with output false. For other
    children the expression stays empty. -/
def childExpression (child : Tree) (subtree edge : Except Error Expr) :
    Except Error (Option Expr) :=
  match child with
  | .int _ _ _ _ => do return some (.and (← subtree) (← edge))
  | .leaf true => do return some (← edge)
  | .leaf false => .ok none
  | _ => .error .undefinedBehaviour

/-- `get_z3_exp_int` (lines 143–285). -/
def getZ3ExpInt (attributes : List Expr) : Tree → Except Error Expr
  | .int attr threshold left right => do
    let leftExpression ← childExpression left (getZ3ExpInt attributes left)
      ((findAttribute attributes attr).map fun e => leftTest e threshold)
    let rightExpression ← childExpression right (getZ3ExpInt attributes right)
      ((findAttribute attributes attr).map fun e => rightTest e threshold)
    match leftExpression, rightExpression with
    | some l, some r => return .or l r
    | some l, none => return l
    | none, some r => return r
    | none, none => return .boolVal false
  | _ => .error .undefinedBehaviour

/-- `std::unordered_map<z3::func_decl, conjecture>`. -/
abbrev ConjectureMap := FuncDecl → Option Conjecture

/-- `emplace`: an entry that exists stays. -/
def ConjectureMap.emplace (map : ConjectureMap) (decl : FuncDecl) (c : Conjecture) :
    ConjectureMap :=
  if (map decl).isSome then map else Function.update map decl (some c)

/-- `_set_of_variables.at (categorical_identifier)` and the relation itself. -/
def relationAt (iface : LearnerInterface) (i : ℕ) : Except Error FuncDecl :=
  match iface.relations[i]? with
  | some decl => .ok decl
  | none => .error (.runtimeError "out_of_range")

/-- The expression for a child of the root (lines 104–118). A child that is null keeps
    the expression of the child before it. -/
def nextExpression (attributes : List Expr) (expression : Expr) (child : Tree) :
    Except Error Expr :=
  match child with
  | .leaf b => .ok (.boolVal b)
  | .int _ _ _ _ => getZ3ExpInt attributes child
  | _ => .ok expression

/-- The loop of `get_z3_exp_categorical` (lines 94–136). -/
def categoricalLoop (iface : LearnerInterface) :
    List Tree → ℕ → Expr → ConjectureMap → Except Error ConjectureMap
  | [], _, _, map => .ok map
  | child :: rest, i, expression, map => do
    let expression ← nextExpression iface.attributes expression child
    let decl ← relationAt iface i
    categoricalLoop iface rest (i + 1) expression (map.emplace decl ⟨expression, decl.constants⟩)

/-- The loop that adds conjectures for the other relations (lines 62–90); `random` is
    what `rand ()%2` yields for them. -/
def fillMap (root : Tree) (random : FuncDecl → Bool) (relations : List FuncDecl)
    (map : ConjectureMap) : ConjectureMap :=
  relations.foldl (fun map decl =>
    let value := match root with
      | .leaf b => b
      | _ => random decl
    map.emplace decl ⟨.boolVal value, decl.constants⟩) map

/-- `get_unordered_map` (lines 46–91). -/
def getUnorderedMap (iface : LearnerInterface) (random : FuncDecl → Bool) (root : Tree) :
    Except Error ConjectureMap := do
  let map ← match root with
    | .categorical _ n children =>
      categoricalLoop iface ((List.range n).map children) 0 (.boolVal false) fun _ => none
    | _ => .ok fun _ => none
  return fillMap root random iface.relations map

/-! ## The expression of a subtree -/

variable {attributes : List Expr} {ρ : Env} {d : Datapoint}

/-- How the expression reads a node: nowhere if a Boolean argument is not true, and
    otherwise to the left exactly if the threshold is 1. -/
def readTest (attributes : List Expr) (d : Datapoint) (attr : ℕ) (threshold : ℤ) : Option Bool :=
  match attributes[attr]? with
  | some e =>
    if e.isBool then if d.int attr = 1 then some (threshold = 1) else none
    else some (d.int attr ≤ threshold)
  | none => none

/-- The value of an expression that may be dropped. -/
def evalOption (ρ : Env) : Option Expr → Bool
  | some e => e.evalBool ρ
  | none => false

theorem childExpression_spec {child : Tree} {subtree : Except Error Expr} (edge : Expr)
    {test : ℕ → ℤ → Option Bool} (hchild : child.isIntTree = true)
    (hsub : ∀ a θ l r, child = .int a θ l r →
      ∃ e, subtree = .ok e ∧ e.evalBool ρ = child.walk test) :
    ∃ o, childExpression child subtree (.ok edge) = .ok o ∧
      evalOption ρ o = (edge.evalBool ρ && child.walk test) := by
  cases child with
  | null => simp [Tree.isIntTree] at hchild
  | categorical a n cs => simp [Tree.isIntTree] at hchild
  | leaf b =>
    cases b with
    | true => exact ⟨some edge, rfl, by simp [evalOption, Tree.walk]⟩
    | false => exact ⟨none, rfl, by simp [evalOption, Tree.walk]⟩
  | int a θ l r =>
    obtain ⟨e, rfl, he⟩ := hsub a θ l r rfl
    refine ⟨some (.and e edge), rfl, ?_⟩
    show (e.evalBool ρ && edge.evalBool ρ) = _
    rw [he, Bool.and_comm]

/-- The two edges of a node as the expression reads them. -/
theorem tests_eval {attr : ℕ} (threshold : ℤ) {e : Expr} (he : attributes[attr]? = some e)
    (hagree : Agrees ρ e (d.int attr)) (left right : Bool) :
    ((leftTest e threshold).evalBool ρ && left || (rightTest e threshold).evalBool ρ && right) =
      Tree.follow (readTest attributes d attr threshold) left right := by
  unfold readTest leftTest rightTest
  rw [he]
  unfold Agrees at hagree
  by_cases hb : e.isBool = true
  · simp only [hb, if_true, Expr.evalBool] at hagree ⊢
    by_cases h1 : d.int attr = 1
    · rw [if_pos h1, hagree.mpr h1]
      by_cases ht : threshold = 1
      · simp [ht]
      · simp [ht]
    · have hfalse : e.evalBool ρ = false := by
        rw [← Bool.not_eq_true, hagree]
        exact h1
      rw [if_neg h1, hfalse]
      rfl
  · simp only [hb, Bool.false_eq_true, if_false, Expr.evalBool] at hagree ⊢
    rw [hagree]
    by_cases hle : d.int attr ≤ threshold
    · simp [hle, not_lt.mpr hle]
    · simp [hle, not_le.mp hle]

/-- The meaning of the expression of a subtree. -/
theorem evalBool_getZ3ExpInt (hagree : List.Forall₂ (Agrees ρ) attributes d.intData) :
    ∀ {t : Tree}, t.isIntTree = true → t.Thresholds (fun attr _ => attr < attributes.length) →
      ∀ {a θ l r}, t = .int a θ l r →
      ∃ e, getZ3ExpInt attributes t = .ok e ∧ e.evalBool ρ = t.walk (readTest attributes d) := by
  intro t
  induction t with
  | null => simp
  | leaf b => simp
  | categorical a n cs ih => simp
  | int attr threshold left right ihl ihr =>
    intro hint hthr _ _ _ _ _
    rw [Tree.isIntTree, Bool.and_eq_true] at hint
    obtain ⟨hlt, hthrl, hthrr⟩ := hthr
    have hattr : attributes[attr]? = some attributes[attr] := List.getElem?_eq_getElem hlt
    have hval : Agrees ρ attributes[attr] (d.int attr) := by
      have hlt' : attr < d.intData.length := hagree.length_eq ▸ hlt
      have := hagree.get hlt hlt'
      unfold Datapoint.int
      rw [List.getD_eq_getElem _ _ hlt']
      exact this
    have hfind : findAttribute attributes attr = .ok attributes[attr] := by
      rw [findAttribute, hattr]
    obtain ⟨ol, hol, hevl⟩ := childExpression_spec (leftTest attributes[attr] threshold)
      hint.1 fun a θ l r hl => ihl hint.1 hthrl hl
    obtain ⟨or, hor, hevr⟩ := childExpression_spec (rightTest attributes[attr] threshold)
      hint.2 fun a θ l r hr => ihr hint.2 hthrr hr
    have hnode := tests_eval threshold hattr hval
      (left.walk (readTest attributes d)) (right.walk (readTest attributes d))
    rw [← hevl, ← hevr] at hnode
    rw [getZ3ExpInt, Tree.walk, ← hnode, hfind]
    simp only [Except.map, hol, hor, bind, Except.bind]
    cases ol with
    | some l =>
      cases or with
      | some r => exact ⟨_, rfl, rfl⟩
      | none => exact ⟨_, rfl, by simp [evalOption]⟩
    | none =>
      cases or with
      | some r => exact ⟨_, rfl, by simp [evalOption]⟩
      | none => exact ⟨_, rfl, rfl⟩

/-- `get_z3_exp_leaf` or `get_z3_exp_int`. -/
def subtreeExpression (attributes : List Expr) : Tree → Except Error Expr
  | .leaf b => .ok (.boolVal b)
  | t => getZ3ExpInt attributes t

theorem evalBool_subtreeExpression (hagree : List.Forall₂ (Agrees ρ) attributes d.intData)
    {t : Tree} (hint : t.isIntTree = true)
    (hthr : t.Thresholds fun attr _ => attr < attributes.length) :
    ∃ e, subtreeExpression attributes t = .ok e ∧
      e.evalBool ρ = t.walk (readTest attributes d) := by
  cases t with
  | null => simp [Tree.isIntTree] at hint
  | leaf b => exact ⟨.boolVal b, rfl, rfl⟩
  | int a θ l r => exact evalBool_getZ3ExpInt hagree hint hthr rfl
  | categorical a n cs => simp [Tree.isIntTree] at hint

/-! ## The map -/

theorem ConjectureMap.emplace_of_some {map : ConjectureMap} {decl decl' : FuncDecl}
    {c c' : Conjecture} (h : map decl = some c) : (map.emplace decl' c') decl = some c := by
  unfold ConjectureMap.emplace
  split_ifs with hs
  · exact h
  · have hne : decl ≠ decl' := by
      rintro rfl
      rw [h] at hs
      exact hs rfl
    rw [Function.update_of_ne hne]
    exact h

theorem ConjectureMap.emplace_of_none {map : ConjectureMap} {decl : FuncDecl} (c : Conjecture)
    (h : map decl = none) : (map.emplace decl c) decl = some c := by
  rw [ConjectureMap.emplace, h]
  exact Function.update_self ..

theorem fillMap_of_some {root : Tree} {random : FuncDecl → Bool} {decl : FuncDecl}
    {c : Conjecture} : ∀ (relations : List FuncDecl) (map : ConjectureMap), map decl = some c →
      fillMap root random relations map decl = some c := by
  intro relations
  induction relations with
  | nil => exact fun map h => h
  | cons decl' relations ih => exact fun map h => ih _ (ConjectureMap.emplace_of_some h)

/-- The child of the root is null, or its expression can be built. -/
def Translatable (attributes : List Expr) (child : Tree) : Prop :=
  child.isNull = true ∨ child.isIntTree = true ∧ ∃ e, subtreeExpression attributes child = .ok e

theorem nextExpression_spec {attributes : List Expr} (expression : Expr) {child : Tree}
    (h : Translatable attributes child) :
    ∃ e, nextExpression attributes expression child = .ok e ∧
      (child.isNull = false → subtreeExpression attributes child = .ok e) := by
  cases child with
  | null => exact ⟨expression, rfl, by simp [Tree.isNull]⟩
  | leaf b => exact ⟨.boolVal b, rfl, fun _ => rfl⟩
  | int a θ l r =>
    obtain h | ⟨-, e, he⟩ := h
    · simp [Tree.isNull] at h
    · exact ⟨e, he, fun _ => he⟩
  | categorical a n cs =>
    obtain h | ⟨h, -⟩ := h
    · simp [Tree.isNull] at h
    · simp [Tree.isIntTree] at h

/-- The loop over the children gives every relation the expression that is carried to
    its child. -/
theorem categoricalLoop_spec (iface : LearnerInterface) (hnd : iface.relations.Nodup) :
    ∀ (rest : List Tree) (i : ℕ) (expression : Expr) (map : ConjectureMap),
      i + rest.length ≤ iface.relations.length →
      (∀ child ∈ rest, Translatable iface.attributes child) →
      (∀ j decl, i ≤ j → iface.relations[j]? = some decl → map decl = none) →
      ∃ map', categoricalLoop iface rest i expression map = .ok map' ∧
        (∀ decl c, map decl = some c → map' decl = some c) ∧
        ∀ j decl, j < rest.length → iface.relations[i + j]? = some decl →
          ∃ e, (rest.take (j + 1)).foldlM (nextExpression iface.attributes) expression = .ok e ∧
            map' decl = some ⟨e, decl.constants⟩ := by
  intro rest
  induction rest with
  | nil =>
    intro i expression map _ _ _
    exact ⟨map, rfl, fun _ _ h => h, by simp⟩
  | cons child rest ih =>
    intro i expression map hlen hrest hmap
    rw [List.length_cons] at hlen
    have hlt : i < iface.relations.length := by omega
    set decl := iface.relations[i] with hdecl
    have hget : iface.relations[i]? = some decl := List.getElem?_eq_getElem hlt
    have hrel : relationAt iface i = .ok decl := by rw [relationAt, hget]
    obtain ⟨e, hnext, -⟩ := nextExpression_spec expression (hrest child List.mem_cons_self)
    have hloop : categoricalLoop iface (child :: rest) i expression map =
        categoricalLoop iface rest (i + 1) e (map.emplace decl ⟨e, decl.constants⟩) := by
      rw [categoricalLoop, hnext, hrel]
      rfl
    have hnone : map decl = none := hmap i decl (le_refl _) hget
    obtain ⟨map', hrun, hkeep, hnew⟩ := ih (i + 1) e (map.emplace decl ⟨e, decl.constants⟩)
      (by omega) (fun c hc => hrest c (List.mem_cons_of_mem _ hc)) (by
        intro j decl' hj hget'
        have hne : decl' ≠ decl := by
          intro heq
          have := (List.nodup_iff_getElem?_ne_getElem?.mp hnd) i j (by omega)
            (by obtain ⟨h, -⟩ := List.getElem?_eq_some_iff.mp hget'; exact h)
          rw [hget, hget', heq] at this
          exact this rfl
        rw [ConjectureMap.emplace, hnone]
        show Function.update map decl _ decl' = none
        rw [Function.update_of_ne hne]
        exact hmap j decl' (by omega) hget')
    refine ⟨map', hloop.trans hrun, fun decl' c h => hkeep _ _ (ConjectureMap.emplace_of_some h),
      fun j decl' hj hget' => ?_⟩
    match j with
    | 0 =>
      obtain rfl : decl = decl' := Option.some.inj (hget.symm.trans hget')
      refine ⟨e, ?_, hkeep _ _ (ConjectureMap.emplace_of_none _ hnone)⟩
      rw [List.take_succ_cons, List.foldlM_cons, hnext]
      rfl
    | j + 1 =>
      obtain ⟨e', hfold, hmap'⟩ := hnew j decl' (by simpa using hj) (by
        rw [← hget']
        congr 1
        omega)
      refine ⟨e', ?_, hmap'⟩
      rw [List.take_succ_cons, List.foldlM_cons, hnext]
      exact hfold

/-- A child that is not null gets its own expression. -/
theorem carried_of_not_null {attributes : List Expr} {l : List Tree} {j : ℕ} {child : Tree}
    {expression e : Expr} (hj : l[j]? = some child) (hnull : child.isNull = false)
    (hchild : Translatable attributes child)
    (h : (l.take (j + 1)).foldlM (nextExpression attributes) expression = .ok e) :
    subtreeExpression attributes child = .ok e := by
  rw [List.take_add_one, hj, Option.toList_some, List.foldlM_append, bind_ok] at h
  obtain ⟨expression', -, hlast⟩ := h
  rw [List.foldlM_cons, bind_ok] at hlast
  obtain ⟨e', hnext, hret⟩ := hlast
  obtain rfl := Except.ok.inj hret
  obtain ⟨e, hnext', he⟩ := nextExpression_spec expression' hchild
  obtain rfl := Except.ok.inj (hnext.symm.trans hnext')
  exact he hnull

/-- The conjectures for a root with a child for every relation. -/
theorem getUnorderedMap_categorical {iface : LearnerInterface} (hnd : iface.relations.Nodup)
    (random : FuncDecl → Bool) (attr : ℕ) {n : ℕ} (hn : n ≤ iface.relations.length)
    {children : ℕ → Tree} (hchildren : ∀ c < n, Translatable iface.attributes (children c)) :
    ∃ map, getUnorderedMap iface random (.categorical attr n children) = .ok map ∧
      ∀ i decl, i < n → iface.relations[i]? = some decl →
        ∃ e, (((List.range n).map children).take (i + 1)).foldlM (nextExpression iface.attributes)
            (.boolVal false) = .ok e ∧ map decl = some ⟨e, decl.constants⟩ := by
  obtain ⟨map, hloop, -, hmap⟩ := categoricalLoop_spec iface hnd
    ((List.range n).map children) 0 (.boolVal false) (fun _ => none) (by simpa using hn)
    (by
      intro child hmem
      obtain ⟨c, hc, rfl⟩ := List.mem_map.mp hmem
      exact hchildren c (List.mem_range.mp hc))
    fun _ _ _ _ => rfl
  refine ⟨fillMap (.categorical attr n children) random iface.relations map, ?_, ?_⟩
  · rw [getUnorderedMap, hloop]
    rfl
  · intro i decl hi hdecl
    obtain ⟨e, hfold, hmapi⟩ := hmap i decl (by simpa using hi) (by rwa [Nat.zero_add])
    exact ⟨e, hfold, fillMap_of_some iface.relations map hmapi⟩

/-! ## Correct translations -/

/-- Whether the attribute is a Boolean argument. -/
def isBoolAttribute (attributes : List Expr) (attr : ℕ) : Bool :=
  match attributes[attr]? with
  | some e => e.isBool
  | none => false

/-- The tree with all thresholds of Boolean attributes other than 1 replaced by 0. -/
def readThresholds (isBool : ℕ → Bool) : Tree → Tree
  | .int attr threshold left right =>
    .int attr (if isBool attr then if threshold = 1 then 1 else 0 else threshold)
      (readThresholds isBool left) (readThresholds isBool right)
  | t => t

/-- Every Boolean attribute that is tested on the way of the data point is true. -/
def BoolsTrue (isBool : ℕ → Bool) (d : Datapoint) : Tree → Prop
  | .int attr threshold left right => (isBool attr = true → d.int attr = 1) ∧
    if d.int attr ≤ threshold then BoolsTrue isBool d left else BoolsTrue isBool d right
  | _ => True

/-- The data point reaches a leaf with output true as the expression reads the
    tree. -/
def ReadsTrue (isBool : ℕ → Bool) (d : Datapoint) (t : Tree) : Prop :=
  (readThresholds isBool t).output d = .ok true ∧ BoolsTrue isBool d (readThresholds isBool t)

theorem readsTrue_int {isBool : ℕ → Bool} {attr : ℕ} {threshold : ℤ} {left right : Tree} :
    ReadsTrue isBool d (.int attr threshold left right) ↔
      (isBool attr = true → d.int attr = 1) ∧
      if d.int attr ≤ (if isBool attr then if threshold = 1 then 1 else 0 else threshold) then
        ReadsTrue isBool d left
      else ReadsTrue isBool d right := by
  unfold ReadsTrue
  rw [readThresholds, Tree.output, BoolsTrue]
  split_ifs <;> tauto

/-- The walk that the expression describes. -/
theorem walk_readTest_iff {t : Tree} (hint : t.isIntTree = true)
    (hthr : t.Thresholds fun attr _ => attr < attributes.length) :
    t.walk (readTest attributes d) = true ↔ ReadsTrue (isBoolAttribute attributes) d t := by
  induction t with
  | null => simp [Tree.isIntTree] at hint
  | leaf b => simp [Tree.walk, ReadsTrue, readThresholds, Tree.output, BoolsTrue]
  | categorical a n cs ih => simp [Tree.isIntTree] at hint
  | int attr threshold left right ihl ihr =>
    rw [Tree.isIntTree, Bool.and_eq_true] at hint
    obtain ⟨hlt, hthrl, hthrr⟩ := hthr
    have hl := ihl hint.1 hthrl
    have hr := ihr hint.2 hthrr
    have hget : attributes[attr]? = some attributes[attr] := List.getElem?_eq_getElem hlt
    have hbool : isBoolAttribute attributes attr = attributes[attr].isBool := by
      rw [isBoolAttribute, hget]
    rw [readsTrue_int, hbool, Tree.walk, readTest, hget]
    by_cases hb : attributes[attr].isBool = true
    · simp only [hb, if_true, true_implies]
      by_cases h1 : d.int attr = 1
      · rw [if_pos h1, h1]
        by_cases ht : threshold = 1
        · simp [ht, hl]
        · simp [ht, hr]
      · simp [h1]
    · simp only [hb, Bool.false_eq_true, if_false, false_implies, true_and]
      by_cases hle : d.int attr ≤ threshold
      · simp [hle, hl]
      · simp [hle, hr]

/-- The conjecture for the relation evaluates on the arguments to the output of the
    tree on the data point. -/
def Translated (iface : LearnerInterface) (random : FuncDecl → Bool) (root : Tree)
    (decl : FuncDecl) (values : List Value) (d : Datapoint) : Prop :=
  ∃ map c, getUnorderedMap iface random root = .ok map ∧ map decl = some c ∧
    root.output d = .ok (c.eval values)

/-- A tree is translated correctly for a relation and its arguments iff the data
    point reaches a leaf with output true exactly if it does so as the expression
    reads the tree. -/
theorem getUnorderedMap_iff (boolValue : Bool → ℤ) (htrue : boolValue true = 1)
    (hfalse : boolValue false ≠ 1) (relations : List FuncDecl) (iface : LearnerInterface)
    (hcreate : LearnerInterface.create relations = .ok iface)
    (hnames : (relations.map FuncDecl.name).Nodup) (random : FuncDecl → Bool) (n : ℕ)
    (hn : n ≤ relations.length) (children : ℕ → Tree)
    (hchildren : ∀ c < n, (children c).isNull = true ∨ (children c).isIntTree = true ∧
      (children c).Thresholds fun attr _ => attr < iface.integerIdentifier)
    (i : ℕ) (hi : i < n) (hnull : (children i).isNull = false) (decl : FuncDecl)
    (hdecl : relations[i]? = some decl) (values : List Value)
    (hsort : values.map Value.sort = decl.domain) (d : Datapoint)
    (hd : learnerDatapoint iface boolValue i values = .ok d) :
    Translated iface random (.categorical 0 n children) decl values d ↔
      ((children i).output d = .ok true ↔
        ReadsTrue (isBoolAttribute iface.attributes) d (children i)) := by
  unfold LearnerInterface.create at hcreate
  split_ifs at hcreate with hzero
  obtain rfl := Except.ok.inj hcreate
  have harity : 0 < decl.arity := by
    by_contra h0
    refine hzero (List.any_eq_true.mpr ⟨decl, List.mem_of_getElem? hdecl, ?_⟩)
    exact decide_eq_true (by omega)
  obtain ⟨hcat, hagree⟩ := attributes_agree ⟨relations⟩ htrue hfalse hnames hdecl harity hsort hd
  have hexp : ∀ c < n, Translatable (LearnerInterface.attributes ⟨relations⟩) (children c) := by
    intro c hc
    refine (hchildren c hc).imp_right fun ⟨hint, hthr⟩ => ⟨hint, ?_⟩
    obtain ⟨e, he, -⟩ := evalBool_subtreeExpression hagree hint hthr
    exact ⟨e, he⟩
  -- the conjecture of the relation
  obtain ⟨map, hrun, hmap⟩ := getUnorderedMap_categorical
    (show (⟨relations⟩ : LearnerInterface).relations.Nodup from hnames.of_map) random 0 hn hexp
  obtain ⟨e, hfold, hmapi⟩ := hmap i decl hi hdecl
  have he := carried_of_not_null (by simp [hi]) hnull (hexp i hi) hfold
  obtain ⟨hint, hthr⟩ := (hchildren i hi).resolve_left (by rw [hnull]; simp)
  obtain ⟨e', he', heval⟩ := evalBool_subtreeExpression hagree hint hthr
  obtain rfl : e = e' := Except.ok.inj (he.symm.trans he')
  -- the output of the tree
  have hcategory : d.category 0 = i := by
    unfold Datapoint.category
    rw [hcat]
    rfl
  have houtput : (Tree.categorical 0 n children).output d = (children i).output d := by
    rw [Tree.output, hcategory, if_pos hi, hnull]
    rfl
  have hwalk := Tree.output_eq_walk hint d
  have hreads := walk_readTest_iff (d := d) hint hthr
  rw [← hreads, hwalk, Except.ok.injEq, ← Bool.eq_iff_iff, ← heval]
  constructor
  · rintro ⟨map', c, hmap', hc, hout⟩
    rw [hrun] at hmap'
    obtain rfl := Except.ok.inj hmap'
    rw [hmapi] at hc
    obtain rfl := Option.some.inj hc
    rw [houtput, hwalk] at hout
    exact Except.ok.inj hout
  · intro heq
    refine ⟨_, _, hrun, hmapi, ?_⟩
    rw [houtput, hwalk, heq]
    rfl

/-! ## A Boolean argument -/

/-- A relation with one Boolean argument. -/
def flag : FuncDecl := ⟨"flag", [.bool]⟩

/-- The relation holds iff its argument is false. -/
def notFlag : Tree := .categorical 0 1 fun _ => .int 0 0 (.leaf true) (.leaf false)

/-- The encoding of Booleans by 0 and 1. -/
def zeroOne (b : Bool) : ℤ := if b then 1 else 0

theorem learnerDatapoint_flag (b : Bool) : learnerDatapoint ⟨[flag]⟩ zeroOne 0 [.bool b] =
    .ok { intData := [zeroOne b], categoricalData := [0] } := by
  have hafter := intDataLoop_after zeroOne 0 1 [.bool b] 0 2 rfl (by simp)
  have hloop : intDataLoop zeroOne 0 1 [.bool b] 0 = .ok [zeroOne b] := by
    rw [intDataLoop, if_pos (by decide), if_neg (by simp)]
    show (intDataLoop zeroOne 0 1 [.bool b] 2 >>= _) = _
    rw [hafter]
    rfl
  show (intDataLoop zeroOne 0 1 [.bool b] 0 >>= _) = _
  rw [hloop]
  rfl

/-- The relation holds iff its argument does. -/
def ownFlag : Tree := .categorical 0 1 fun _ => .int 0 0 (.leaf false) (.leaf true)

/-- The tree is translated correctly for both arguments; for `true` its output is true. -/
theorem getUnorderedMap_iff_ownFlag :
    ownFlag.output { intData := [1], categoricalData := [0] } = .ok true ∧
    Translated ⟨[flag]⟩ (fun _ => false) ownFlag flag [.bool true]
      { intData := [1], categoricalData := [0] } ∧
    Translated ⟨[flag]⟩ (fun _ => false) ownFlag flag [.bool false]
      { intData := [0], categoricalData := [0] } := by
  have hthr : (Tree.int 0 0 (.leaf false) (.leaf true)).Thresholds
      fun attr _ => attr < LearnerInterface.integerIdentifier ⟨[flag]⟩ :=
    ⟨by decide, trivial, trivial⟩
  refine ⟨rfl, ?_, ?_⟩
  · refine (getUnorderedMap_iff zeroOne rfl (by decide) [flag] ⟨[flag]⟩ rfl (by simp) _ 1 (by simp)
      _ (fun _ _ => .inr ⟨rfl, hthr⟩) 0 (by decide) rfl flag rfl [.bool true] rfl _
      (learnerDatapoint_flag true)).mpr (iff_of_true rfl ⟨rfl, fun _ => rfl, ?_⟩)
    rw [if_neg (by decide)]
    trivial
  · refine (getUnorderedMap_iff zeroOne rfl (by decide) [flag] ⟨[flag]⟩ rfl (by simp) _ 1 (by simp)
      _ (fun _ _ => .inr ⟨rfl, hthr⟩) 0 (by decide) rfl flag rfl [.bool false] rfl _
      (learnerDatapoint_flag false)).mpr (iff_of_false (by decide) fun hreads => ?_)
    have hout : Except.ok false = (Except.ok true : Except Error Bool) := hreads.1
    cases hout

/-- For the argument false the tree outputs true, but the conjecture is false. -/
theorem getUnorderedMap_flag_false : ∃ map c,
    learnerDatapoint ⟨[flag]⟩ zeroOne 0 [.bool false] =
      .ok { intData := [0], categoricalData := [0] } ∧
    getUnorderedMap ⟨[flag]⟩ (fun _ => false) notFlag = .ok map ∧ map flag = some c ∧
    notFlag.output { intData := [0], categoricalData := [0] } = .ok true ∧
    c.eval [.bool false] = false :=
  ⟨_, _, learnerDatapoint_flag false, rfl, rfl, rfl, rfl⟩

end HiceDt.Chc
