import Mathlib.Logic.Function.Basic
import HiceDt.Solver.Datapoint

/-!
# Decision trees

Models of `hice-dt/include/decision_tree.h` and
`hice-dt/src/output_visitor.cpp`. While a tree is being built it has holes: null
pointers that pending slices refer to with a `base_node **`. Such an address is
modelled by the path from the root to the slot.

Results:

* `Tree.output_of_routes`: a point that is routed to a subtree gets the output of
  the subtree.
* `Tree.output_setAt`: filling a hole does not change the output on points that
  already reach a leaf.
* `Tree.subtree_setAt_of_ne`, `Tree.routes_setAt`: filling a hole keeps the other
  holes and the routes to all holes.
* `Tree.Thresholds.setAt`: the thresholds of a tree that is being built.
* `Tree.output_eq_walk`: the output as a walk to a leaf.
-/

namespace HiceDt

/-! ## Errors -/

/-- The ways in which the learner and its helpers stop abnormally: the exceptions
    of `hice-dt/include/error.h` and `horndini.h` and `std::runtime_error` with their
    texts, failing assertions (the build does not define `NDEBUG`), and accesses whose
    behaviour is undefined. `outOfFuel` is not an outcome of the program. -/
inductive Error where
  | splitNotPossibleError (what : String)
  | sampleError (what : String)
  | internalError (what : String)
  | runtimeError (what : String)
  | noConjunctionExistsException (what : String)
  | assertionFailure
  | undefinedBehaviour
  | outOfFuel
deriving DecidableEq, Repr

/-- `assert (b)`. -/
def assert (b : Bool) : Except Error Unit :=
  if b then .ok () else .error .assertionFailure

theorem assert_eq_ok {b : Bool} {u : Unit} (h : assert b = .ok u) : b = true := by
  unfold assert at h
  split_ifs at h with hb
  exact hb

@[simp] theorem assert_true : assert true = .ok () := rfl

/-! ## Trees -/

/-- `_int_data[attribute]`. -/
def Datapoint.int (d : Datapoint) (attr : ℕ) : ℤ := d.intData.getD attr 0

/-- `_categorical_data[attribute]`. -/
def Datapoint.category (d : Datapoint) (attr : ℕ) : ℕ := d.categoricalData.getD attr 0

/-- `base_node *`: a null pointer, a `leaf_node`, an `int_node` with its two
    children, or a `categorical_node` with its vector of children. -/
inductive Tree where
  | null
  | leaf (output : Bool)
  | int (attr : ℕ) (threshold : ℤ) (left right : Tree)
  | categorical (attr numberOfCategories : ℕ) (children : ℕ → Tree)

namespace Tree

/-- Whether the pointer is null. -/
def isNull : Tree → Bool
  | .null => true
  | _ => false

/-- `output_visitor::output` (`output_visitor.cpp`, lines 13–58). -/
def output : Tree → Datapoint → Except Error Bool
  | .null, _ => .error .undefinedBehaviour
  | .leaf b, _ => .ok b
  | .int attr threshold left right, d =>
    if d.int attr ≤ threshold then output left d else output right d
  | .categorical attr n children, d =>
    if d.category attr < n then
      if (children (d.category attr)).isNull then
        .error (.internalError "No child for categorical value in the tree")
      else output (children (d.category attr)) d
    else .error .undefinedBehaviour

/-! ## Slots -/

/-- The child of a node in slot `i`. -/
def child : Tree → ℕ → Option Tree
  | .int _ _ left _, 0 => some left
  | .int _ _ _ right, 1 => some right
  | .categorical _ n children, i => if i < n then some (children i) else none
  | _, _ => none

/-- The slot that a data point takes at a node. -/
def branch : Tree → Datapoint → Option ℕ
  | .int attr threshold _ _, d => some (if d.int attr ≤ threshold then 0 else 1)
  | .categorical attr _ _, d => some (d.category attr)
  | _, _ => none

/-- The subtree at the end of a path. -/
def subtree : Tree → List ℕ → Option Tree
  | t, [] => some t
  | t, i :: path => (t.child i).bind fun c => c.subtree path

/-- The data point takes the given path. -/
def Routes : Tree → List ℕ → Datapoint → Prop
  | _, [], _ => True
  | t, i :: path, d => t.branch d = some i ∧ ∃ c, t.child i = some c ∧ c.Routes path d

/-- Replace the child in slot `i`. -/
def setChild : Tree → ℕ → Tree → Tree
  | .int a θ _ right, 0, new => .int a θ new right
  | .int a θ left _, 1, new => .int a θ left new
  | .categorical a n children, i, new => .categorical a n (Function.update children i new)
  | t, _, _ => t

/-- `*(node_ptr) = new`. -/
def setAt : Tree → List ℕ → Tree → Tree
  | _, [], new => new
  | t, i :: path, new =>
    match t.child i with
    | some c => t.setChild i (c.setAt path new)
    | none => t

/-! ## One level -/

theorem branch_setChild (t : Tree) (i : ℕ) (new : Tree) (d : Datapoint) :
    (t.setChild i new).branch d = t.branch d := by
  cases t with
  | null => rfl
  | leaf b => rfl
  | int a θ l r =>
    match i with
    | 0 => rfl
    | 1 => rfl
    | _ + 2 => rfl
  | categorical a n cs => rfl

theorem child_setChild_self {t c : Tree} {i : ℕ} (h : t.child i = some c) (new : Tree) :
    (t.setChild i new).child i = some new := by
  cases t with
  | null => simp [child] at h
  | leaf b => simp [child] at h
  | int a θ l r =>
    match i, h with
    | 0, _ => rfl
    | 1, _ => rfl
  | categorical a n cs =>
    have hi : i < n := by
      by_contra hn
      simp [child, hn] at h
    simp [setChild, child, hi]

theorem child_setChild_of_ne {t : Tree} {i j : ℕ} (h : j ≠ i) (new : Tree) :
    (t.setChild i new).child j = t.child j := by
  cases t with
  | null => rfl
  | leaf b => rfl
  | int a θ l r =>
    match i, j, h with
    | 0, 0, h => exact absurd rfl h
    | 0, 1, _ => rfl
    | 0, _ + 2, _ => rfl
    | 1, 0, _ => rfl
    | 1, 1, h => exact absurd rfl h
    | 1, _ + 2, _ => rfl
    | _ + 2, _, _ => rfl
  | categorical a n cs => simp [setChild, child, Function.update_of_ne h]

/-- At an inner node the output is the output of the child that the point takes. -/
theorem output_eq_child {t c : Tree} {d : Datapoint} {i : ℕ} (hb : t.branch d = some i)
    (hc : t.child i = some c) (hn : c.isNull = false) : t.output d = c.output d := by
  cases t with
  | null => simp [branch] at hb
  | leaf b => simp [branch] at hb
  | int a θ l r =>
    simp only [branch, Option.some.injEq] at hb
    subst hb
    rw [output]
    split_ifs at hc ⊢
    · rw [show l = c from Option.some.inj hc]
    · rw [show r = c from Option.some.inj hc]
  | categorical a n cs =>
    simp only [branch, Option.some.injEq] at hb
    subst hb
    have hi : d.category a < n := by
      by_contra hi
      simp [child, hi] at hc
    simp only [child, if_pos hi, Option.some.injEq] at hc
    rw [← hc] at hn ⊢
    rw [output, if_pos hi, if_neg (by simp [hn])]

/-- A point with an output at an inner node takes a child that is not null. -/
theorem exists_child_of_output {t : Tree} {d : Datapoint} {b : Bool} (h : t.output d = .ok b) :
    t = .leaf b ∨ ∃ i c, t.branch d = some i ∧ t.child i = some c ∧ c.isNull = false ∧
      c.output d = .ok b := by
  cases t with
  | null => simp [output] at h
  | leaf b' =>
    simp only [output, Except.ok.injEq] at h
    exact .inl (by rw [h])
  | int a θ l r =>
    have hnull : ∀ {c : Tree}, c.output d = .ok b → c.isNull = false := by
      intro c hc
      cases c <;> first | rfl | simp [output] at hc
    right
    rw [output] at h
    by_cases hθ : d.int a ≤ θ
    · rw [if_pos hθ] at h
      exact ⟨0, l, by simp [branch, hθ], rfl, hnull h, h⟩
    · rw [if_neg hθ] at h
      exact ⟨1, r, by simp [branch, hθ], rfl, hnull h, h⟩
  | categorical a n cs =>
    right
    rw [output] at h
    split_ifs at h with hi hn
    exact ⟨d.category a, cs (d.category a), rfl, by simp [child, hi], by simpa using hn, h⟩

/-! ## Paths -/

theorem subtree_append (t : Tree) (path rest : List ℕ) :
    t.subtree (path ++ rest) = (t.subtree path).bind fun c => c.subtree rest := by
  induction path generalizing t with
  | nil => rfl
  | cons i path ih =>
    simp only [List.cons_append, subtree]
    cases t.child i with
    | none => rfl
    | some c => exact ih c

theorem routes_append {t s : Tree} {path rest : List ℕ} {d : Datapoint}
    (h : t.Routes path d) (hs : t.subtree path = some s) (hr : s.Routes rest d) :
    t.Routes (path ++ rest) d := by
  induction path generalizing t with
  | nil =>
    simp only [subtree, Option.some.injEq] at hs
    rw [hs]
    exact hr
  | cons i path ih =>
    obtain ⟨hb, c, hc, hrc⟩ := h
    simp only [subtree, hc, Option.bind_some] at hs
    exact ⟨hb, c, hc, ih hrc hs⟩

/-- A point that is routed to a subtree gets its output. -/
theorem output_of_routes {t s : Tree} {path : List ℕ} {d : Datapoint} (h : t.Routes path d)
    (hs : t.subtree path = some s) (hn : s.isNull = false) : t.output d = s.output d := by
  induction path generalizing t with
  | nil =>
    simp only [subtree, Option.some.injEq] at hs
    rw [hs]
  | cons i path ih =>
    obtain ⟨hb, c, hc, hrc⟩ := h
    simp only [subtree, hc, Option.bind_some] at hs
    have hcn : c.isNull = false := by
      cases path with
      | nil =>
        simp only [subtree, Option.some.injEq] at hs
        rw [hs]
        exact hn
      | cons j path =>
        obtain ⟨hbj, -⟩ := hrc
        cases c with
        | null => simp [branch] at hbj
        | leaf b => rfl
        | int a θ l r => rfl
        | categorical a n cs => rfl
    rw [output_eq_child hb hc hcn]
    exact ih hrc hs

/-! ## Filling a hole -/

theorem setAt_cons {t c : Tree} {i : ℕ} (h : t.child i = some c) (path : List ℕ) (new : Tree) :
    t.setAt (i :: path) new = t.setChild i (c.setAt path new) := by
  simp only [setAt, h]

theorem subtree_setAt {t s : Tree} {path : List ℕ} (h : t.subtree path = some s) (new : Tree) :
    (t.setAt path new).subtree path = some new := by
  induction path generalizing t with
  | nil => rfl
  | cons i path ih =>
    simp only [subtree] at h
    cases hc : t.child i with
    | none => simp [hc] at h
    | some c =>
      simp only [hc, Option.bind_some] at h
      rw [setAt_cons hc]
      simp only [subtree, child_setChild_self hc, Option.bind_some]
      exact ih h

/-- The other holes stay. -/
theorem subtree_setAt_of_ne {t : Tree} {path path' : List ℕ} (h : t.subtree path = some .null)
    (h' : t.subtree path' = some .null) (hne : path' ≠ path) (new : Tree) :
    (t.setAt path new).subtree path' = some .null := by
  induction path generalizing t path' with
  | nil =>
    -- the whole tree is the hole, so there is no other
    simp only [subtree, Option.some.injEq] at h
    rw [h] at h'
    cases path' with
    | nil => exact absurd rfl hne
    | cons j path' => simp [subtree, child] at h'
  | cons i path ih =>
    simp only [subtree] at h
    cases hc : t.child i with
    | none => simp [hc] at h
    | some c =>
      simp only [hc, Option.bind_some] at h
      rw [setAt_cons hc]
      cases path' with
      | nil =>
        simp only [subtree, Option.some.injEq] at h'
        rw [h'] at hc
        simp [child] at hc
      | cons j path' =>
        by_cases hj : j = i
        · subst hj
          simp only [subtree, hc, Option.bind_some] at h'
          simp only [subtree, child_setChild_self hc, Option.bind_some]
          exact ih h h' fun e => hne (by rw [e])
        · simp only [subtree, child_setChild_of_ne hj] at h' ⊢
          exact h'

/-- Filling a hole does not change the routes to holes. -/
theorem routes_setAt {t : Tree} {path path' : List ℕ} {d : Datapoint}
    (h : t.subtree path = some .null) (h' : t.subtree path' = some .null)
    (hr : t.Routes path' d) (new : Tree) : (t.setAt path new).Routes path' d := by
  induction path generalizing t path' with
  | nil =>
    simp only [subtree, Option.some.injEq] at h
    rw [h] at h'
    cases path' with
    | nil => trivial
    | cons j path' => simp [subtree, child] at h'
  | cons i path ih =>
    simp only [subtree] at h
    cases hc : t.child i with
    | none => simp [hc] at h
    | some c =>
      simp only [hc, Option.bind_some] at h
      rw [setAt_cons hc]
      cases path' with
      | nil => trivial
      | cons j path' =>
        obtain ⟨hb, c', hc', hrc⟩ := hr
        simp only [subtree, hc', Option.bind_some] at h'
        refine ⟨by rw [branch_setChild]; exact hb, ?_⟩
        by_cases hj : j = i
        · subst hj
          rw [hc, Option.some.injEq] at hc'
          subst hc'
          exact ⟨_, child_setChild_self hc _, ih h h' hrc⟩
        · exact ⟨c', by rw [child_setChild_of_ne hj]; exact hc', hrc⟩

/-- Filling a hole does not change the output on points that reach a leaf. -/
theorem output_setAt {t : Tree} {path : List ℕ} {d : Datapoint} {b : Bool}
    (h : t.subtree path = some .null) (ho : t.output d = .ok b) (new : Tree) :
    (t.setAt path new).output d = .ok b := by
  induction path generalizing t with
  | nil =>
    simp only [subtree, Option.some.injEq] at h
    rw [h] at ho
    simp [output] at ho
  | cons i path ih =>
    simp only [subtree] at h
    cases hc : t.child i with
    | none => simp [hc] at h
    | some c =>
      simp only [hc, Option.bind_some] at h
      rw [setAt_cons hc]
      rcases exists_child_of_output ho with hleaf | ⟨j, c', hb, hc', hn, hoc⟩
      · rw [hleaf] at hc
        simp [child] at hc
      · by_cases hj : j = i
        · subst hj
          rw [hc, Option.some.injEq] at hc'
          subst hc'
          have hnew := ih h hoc
          have hnn : (c.setAt path new).isNull = false := by
            cases hs : c.setAt path new with
            | null => rw [hs] at hnew; simp [output] at hnew
            | leaf _ => rfl
            | int _ _ _ _ => rfl
            | categorical _ _ _ => rfl
          rw [output_eq_child (by rw [branch_setChild]; exact hb) (child_setChild_self hc _) hnn]
          exact hnew
        · rw [output_eq_child (by rw [branch_setChild]; exact hb)
            (by rw [child_setChild_of_ne hj]; exact hc') hn]
          exact hoc

/-! ## Thresholds -/

/-- The attributes and thresholds of all integer nodes satisfy `p`. -/
def Thresholds (p : ℕ → ℤ → Prop) : Tree → Prop
  | .null => True
  | .leaf _ => True
  | .int attr threshold left right => p attr threshold ∧ Thresholds p left ∧ Thresholds p right
  | .categorical _ _ children => ∀ c, Thresholds p (children c)

theorem Thresholds.child {p : ℕ → ℤ → Prop} {t c : Tree} {i : ℕ} (h : t.Thresholds p)
    (hc : t.child i = some c) : c.Thresholds p := by
  cases t with
  | null => simp [Tree.child] at hc
  | leaf b => simp [Tree.child] at hc
  | int a θ l r =>
    match i, hc with
    | 0, hc => rw [← Option.some.inj hc]; exact h.2.1
    | 1, hc => rw [← Option.some.inj hc]; exact h.2.2
  | categorical a n cs =>
    rw [Tree.child] at hc
    split_ifs at hc
    rw [← Option.some.inj hc]
    exact h i

theorem Thresholds.setChild {p : ℕ → ℤ → Prop} {t new : Tree} (h : t.Thresholds p)
    (hnew : new.Thresholds p) (i : ℕ) : (t.setChild i new).Thresholds p := by
  cases t with
  | null => exact h
  | leaf b => exact h
  | int a θ l r =>
    match i with
    | 0 => exact ⟨h.1, hnew, h.2.2⟩
    | 1 => exact ⟨h.1, h.2.1, hnew⟩
    | _ + 2 => exact h
  | categorical a n cs =>
    intro c
    by_cases hc : c = i
    · subst hc
      rw [Function.update_self]
      exact hnew
    · rw [Function.update_of_ne hc]
      exact h c

/-- Filling a hole adds the thresholds of the new subtree only. -/
theorem Thresholds.setAt {p : ℕ → ℤ → Prop} {t new : Tree} (h : t.Thresholds p)
    (hnew : new.Thresholds p) (path : List ℕ) : (t.setAt path new).Thresholds p := by
  induction path generalizing t with
  | nil => exact hnew
  | cons i path ih =>
    rw [Tree.setAt]
    cases hc : t.child i with
    | none => exact h
    | some c => exact h.setChild (ih (h.child hc)) i

theorem Thresholds.imp {p q : ℕ → ℤ → Prop} (h : ∀ attr threshold, p attr threshold →
    q attr threshold)
    {t : Tree} (ht : t.Thresholds p) : t.Thresholds q := by
  induction t with
  | null => trivial
  | leaf b => trivial
  | int a θ l r ihl ihr => exact ⟨h a θ ht.1, ihl ht.2.1, ihr ht.2.2⟩
  | categorical a n cs ih => exact fun c => ih c (ht c)

/-- The tree has integer nodes and leaves only. -/
def isIntTree : Tree → Bool
  | .leaf _ => true
  | .int _ _ left right => left.isIntTree && right.isIntTree
  | _ => false

/-- Go to the left (`some true`), to the right, or nowhere; then the result is
    false. -/
def follow (go : Option Bool) (left right : Bool) : Bool :=
  match go with
  | some true => left
  | some false => right
  | none => false

@[simp] theorem follow_left (left right : Bool) : follow (some true) left right = left := rfl

@[simp] theorem follow_right (left right : Bool) : follow (some false) left right = right := rfl

@[simp] theorem follow_none (left right : Bool) : follow none left right = false := rfl

/-- Walk from the root to a leaf; the test decides where to go at each node. -/
def walk (test : ℕ → ℤ → Option Bool) : Tree → Bool
  | .leaf b => b
  | .int attr threshold left right =>
    follow (test attr threshold) (left.walk test) (right.walk test)
  | _ => false

/-- Tests that agree on the thresholds of the tree lead to the same leaf. -/
theorem walk_congr {p : ℕ → ℤ → Prop} {test test' : ℕ → ℤ → Option Bool} {t : Tree}
    (ht : t.Thresholds p) (h : ∀ attr threshold, p attr threshold →
      test attr threshold = test' attr threshold) : t.walk test = t.walk test' := by
  induction t with
  | null => rfl
  | leaf b => rfl
  | int a θ l r ihl ihr => rw [walk, walk, h a θ ht.1, ihl ht.2.1, ihr ht.2.2]
  | categorical a n cs ih => rfl

/-- The output of such a tree. -/
theorem output_eq_walk {t : Tree} (ht : t.isIntTree = true) (d : Datapoint) :
    t.output d = .ok (t.walk fun attr threshold => some (decide (d.int attr ≤ threshold))) := by
  induction t with
  | null => simp [isIntTree] at ht
  | leaf b => rfl
  | int a θ l r ihl ihr =>
    rw [isIntTree, Bool.and_eq_true] at ht
    rw [output, walk]
    by_cases hle : d.int a ≤ θ
    · rw [if_pos hle, decide_eq_true hle]
      exact ihl ht.1
    · rw [if_neg hle, decide_eq_false hle]
      exact ihr ht.2
  | categorical a n cs ih => simp [isIntTree] at ht

end Tree

end HiceDt
