import HiceDt.Chc.DataVector
import HiceDt.Chc.DtToZ3

/-!
# Independent conjectures

Every relation should get a conjecture over its own variables that depends on its own
child of the root only. The loop of `get_z3_exp_categorical`
(`chc_verifier/include/dt_to_z3_exp.h`, lines 101–140) carries an expression from one
child to the next one, and a child that is null leaves it as it is.

Results:

* `getZ3ExpInt_constants`: the constants in the expression of a subtree.
* `subset_constants_iff`: attributes of the interval of a relation are those over its
  own variables.
* `independent_iff`: the conjecture of a relation is independent iff its child is not
  null and uses attributes of the relation only, or it is the first child and null.
-/

namespace HiceDt.Chc

open HiceDt Loop

/-! ## Constants of an expression -/

/-- The constants that occur in an expression. -/
def Expr.constants : Expr → List Const
  | .boolVal _ => []
  | .const c => [c]
  | .add a b => a.constants ++ b.constants
  | .sub a b => a.constants ++ b.constants
  | .le a _ => a.constants
  | .gt a _ => a.constants
  | .and a b => a.constants ++ b.constants
  | .or a b => a.constants ++ b.constants

/-- A leaf with output false. -/
def isFalseLeaf : Tree → Bool
  | .leaf b => !b
  | _ => false

/-- The attributes that the expression of a tree uses: no edge to a leaf with output
    false is translated. -/
def usedAttributes : Tree → List ℕ
  | .int attr _ left right =>
    (if isFalseLeaf left && isFalseLeaf right then [] else [attr]) ++
      (usedAttributes left ++ usedAttributes right)
  | _ => []

variable {attributes : List Expr} {c : Const}

theorem leftTest_constants (e : Expr) (threshold : ℤ) :
    (leftTest e threshold).constants = e.constants := by
  unfold leftTest
  split_ifs
  · exact List.append_nil _
  · rfl

theorem rightTest_constants (e : Expr) (threshold : ℤ) :
    (rightTest e threshold).constants = e.constants := by
  unfold rightTest
  split_ifs
  · exact List.append_nil _
  · rfl

/-- The constant occurs in one of the attributes. -/
def OccursIn (attributes : List Expr) (attrs : List ℕ) (c : Const) : Prop :=
  ∃ attr ∈ attrs, ∃ e, attributes[attr]? = some e ∧ c ∈ e.constants

theorem occursIn_append {attrs attrs' : List ℕ} : OccursIn attributes (attrs ++ attrs') c ↔
    OccursIn attributes attrs c ∨ OccursIn attributes attrs' c := by
  unfold OccursIn
  simp only [List.mem_append, or_and_right, exists_or]

/-- The constants of the expression for an edge and the subtree below it. -/
theorem childExpression_constants {child : Tree} {subtree : Except Error Expr} (edge : Expr)
    (hchild : child.isIntTree = true)
    (hsub : ∀ a θ l r, child = .int a θ l r → ∃ e, subtree = .ok e ∧
      ∀ c, c ∈ e.constants ↔ OccursIn attributes (usedAttributes child) c) :
    ∃ o, childExpression child subtree (.ok edge) = .ok o ∧ (o = none ↔ isFalseLeaf child = true) ∧
      ∀ e, o = some e → ∀ c, c ∈ e.constants ↔
        c ∈ edge.constants ∨ OccursIn attributes (usedAttributes child) c := by
  cases child with
  | null => simp [Tree.isIntTree] at hchild
  | categorical a n cs => simp [Tree.isIntTree] at hchild
  | leaf b =>
    cases b with
    | true =>
      refine ⟨some edge, rfl, by simp [isFalseLeaf], ?_⟩
      intro e heq c
      obtain rfl := Option.some.inj heq
      simp [usedAttributes, OccursIn]
    | false => exact ⟨none, rfl, by simp [isFalseLeaf], by simp⟩
  | int a θ l r =>
    obtain ⟨e, rfl, he⟩ := hsub a θ l r rfl
    refine ⟨some (.and e edge), rfl, by simp [isFalseLeaf], ?_⟩
    intro e' heq c
    obtain rfl := Option.some.inj heq
    rw [Expr.constants, List.mem_append, he, or_comm]

/-- The constants of the expression of a subtree are those of its attributes. -/
theorem getZ3ExpInt_constants : ∀ {t : Tree}, t.isIntTree = true →
    t.Thresholds (fun attr _ => attr < attributes.length) → ∀ {a θ l r}, t = .int a θ l r →
      ∃ e, getZ3ExpInt attributes t = .ok e ∧
        ∀ c, c ∈ e.constants ↔ OccursIn attributes (usedAttributes t) c := by
  intro t
  induction t with
  | null => simp
  | leaf b => simp
  | categorical a n cs ih => simp
  | int attr threshold left right ihl ihr =>
    intro hint hthr _ _ _ _ _
    rw [Tree.isIntTree, Bool.and_eq_true] at hint
    obtain ⟨hlt, hthrl, hthrr⟩ := hthr
    have hattr : attributes[attr]? = some attributes[attr] := List.getElem?_eq_getElem hlt
    have hfind : findAttribute attributes attr = .ok attributes[attr] := by
      rw [findAttribute, hattr]
    obtain ⟨ol, hol, hnonel, hcl⟩ := childExpression_constants (leftTest attributes[attr] threshold)
      hint.1 fun a θ l r hl => ihl hint.1 hthrl hl
    obtain ⟨or, hor, hnoner, hcr⟩ := childExpression_constants
      (rightTest attributes[attr] threshold) hint.2 fun a θ l r hr => ihr hint.2 hthrr hr
    rw [leftTest_constants] at hcl
    rw [rightTest_constants] at hcr
    have hown : ∀ c, OccursIn attributes [attr] c ↔ c ∈ attributes[attr].constants := by
      intro c
      simp [OccursIn, hattr]
    have hempty : ∀ {child : Tree}, isFalseLeaf child = true → usedAttributes child = [] := by
      intro child h
      cases child with
      | leaf b => rfl
      | null => rfl
      | categorical a n cs => rfl
      | int a θ l r => simp [isFalseLeaf] at h
    rw [getZ3ExpInt, hfind]
    simp only [Except.map, hol, hor, bind, Except.bind]
    cases ol with
    | some l =>
      have hno : ¬ isFalseLeaf left = true := by simp [← hnonel]
      cases or with
      | some r =>
        refine ⟨_, rfl, fun c => ?_⟩
        rw [Expr.constants, List.mem_append, hcl l rfl, hcr r rfl, usedAttributes,
          if_neg (by simp [hno]), occursIn_append, occursIn_append, hown]
        tauto
      | none =>
        refine ⟨_, rfl, fun c => ?_⟩
        rw [hcl l rfl, usedAttributes, if_neg (by simp [hno]), hempty (hnoner.mp rfl),
          List.append_nil, occursIn_append, hown]
    | none =>
      cases or with
      | some r =>
        refine ⟨_, rfl, fun c => ?_⟩
        have hno : ¬ isFalseLeaf right = true := by simp [← hnoner]
        rw [hcr r rfl, usedAttributes, if_neg (by simp [hno]), hempty (hnonel.mp rfl),
          List.nil_append, occursIn_append, hown]
      | none =>
        refine ⟨_, rfl, fun c => ?_⟩
        rw [usedAttributes, hempty (hnonel.mp rfl), hempty (hnoner.mp rfl),
          if_pos (by rw [hnonel.mp rfl, hnoner.mp rfl]; rfl)]
        simp [Expr.constants, OccursIn]

/-- What holds of the attributes of all nodes holds of the used ones. -/
theorem usedAttributes_of_thresholds {p : ℕ → Prop} {t : Tree}
    (h : t.Thresholds fun attr _ => p attr) : ∀ attr ∈ usedAttributes t, p attr := by
  induction t with
  | null => simp [usedAttributes]
  | leaf b => simp [usedAttributes]
  | categorical a n cs ih => simp [usedAttributes]
  | int attr threshold left right ihl ihr =>
    obtain ⟨hattr, hleft, hright⟩ := h
    intro attr' hmem
    rw [usedAttributes, List.mem_append, List.mem_append] at hmem
    rcases hmem with hmem | hmem | hmem
    · split_ifs at hmem
      · cases hmem
      · rw [List.mem_singleton.mp hmem]
        exact hattr
    · exact ihl hleft attr' hmem
    · exact ihr hright attr' hmem

theorem subtreeExpression_constants (attributes : List Expr) {t : Tree} (hint : t.isIntTree = true)
    (hthr : t.Thresholds fun attr _ => attr < attributes.length) :
    ∃ e, subtreeExpression attributes t = .ok e ∧
      ∀ c, c ∈ e.constants ↔ OccursIn attributes (usedAttributes t) c := by
  cases t with
  | null => simp [Tree.isIntTree] at hint
  | leaf b => exact ⟨.boolVal b, rfl, by simp [Expr.constants, usedAttributes, OccursIn]⟩
  | int a θ l r => exact getZ3ExpInt_constants hint hthr rfl
  | categorical a n cs => simp [Tree.isIntTree] at hint

/-! ## The attributes of a relation -/

/-- Attributes have constants, and these belong to the relation. -/
theorem FuncDecl.attributes_constants {decl : FuncDecl} {e : Expr} (he : e ∈ decl.attributes) :
    e.constants ≠ [] ∧ ∀ c ∈ e.constants, c ∈ decl.constants := by
  rcases List.mem_append.mp he with he | he
  · obtain ⟨c, hc, rfl⟩ := List.mem_map.mp he
    refine ⟨by simp [Expr.constants], fun c' hc' => ?_⟩
    obtain rfl := List.mem_singleton.mp hc'
    exact hc
  · obtain ⟨p, hp, he⟩ := List.mem_flatMap.mp he
    obtain ⟨h1, h2⟩ := mem_of_mem_pairs hp
    have hpair : ∀ c ∈ [p.1, p.2], c ∈ decl.constants := by
      intro c hc
      rcases List.mem_pair.mp hc with rfl | rfl
      · exact h1
      · exact h2
    unfold derivedAttributes at he
    split_ifs at he
    · rcases List.mem_pair.mp he with rfl | rfl
      · exact ⟨by simp [Expr.constants], hpair⟩
      · exact ⟨by simp [Expr.constants], hpair⟩
    · simp at he

variable {iface : LearnerInterface} {i : ℕ} {decl : FuncDecl}

/-- An attribute of the interval of a relation is one of its attributes. -/
theorem mem_attributes_of_inInterval (hi : iface.relations[i]? = some decl)
    (harity : 0 < decl.arity)
    {k : ℕ} {e : Expr} (hk : iface.InInterval i k) (he : iface.attributes[k]? = some e) :
    e ∈ decl.attributes := by
  obtain ⟨hle, hlt⟩ := (LearnerInterface.inInterval_iff hi harity k).mp hk
  rw [LearnerInterface.attributes_eq hi, getElem?_block _ _ _ hle hlt] at he
  exact List.mem_of_getElem? he

/-- The attributes over the variables of a relation are those of its interval. -/
theorem subset_constants_iff (harities : ∀ decl ∈ iface.relations, 0 < decl.arity)
    (hnames : (iface.relations.map FuncDecl.name).Nodup) (hi : iface.relations[i]? = some decl)
    {k : ℕ} {e : Expr} (he : iface.attributes[k]? = some e) :
    (∀ c ∈ e.constants, c ∈ decl.constants) ↔ iface.InInterval i k := by
  constructor
  · intro hsub
    obtain ⟨hk, -⟩ := List.getElem?_eq_some_iff.mp he
    obtain ⟨j, ⟨hj, hin⟩, -⟩ := (LearnerInterface.partitioned harities).2 k hk
    have hget := List.getElem?_eq_getElem hj
    have hmem := mem_attributes_of_inInterval hget (harities _ (List.getElem_mem hj)) hin he
    obtain ⟨hne, hconst⟩ := FuncDecl.attributes_constants hmem
    obtain ⟨c, rest, hc⟩ := List.exists_cons_of_ne_nil hne
    have hcmem : c ∈ e.constants := hc ▸ List.mem_cons_self
    have hname : iface.relations[j].name = decl.name :=
      (FuncDecl.relation_of_mem (hconst c hcmem)).symm.trans
      (FuncDecl.relation_of_mem (hsub c hcmem))
    obtain ⟨hlt, hdecl⟩ := List.getElem?_eq_some_iff.mp hi
    obtain rfl : j = i := by
      have hj' : j < (iface.relations.map FuncDecl.name).length := by rwa [List.length_map]
      have hlt' : i < (iface.relations.map FuncDecl.name).length := by rwa [List.length_map]
      have hget : (iface.relations.map FuncDecl.name)[j] =
          (iface.relations.map FuncDecl.name)[i] := by
        rw [List.getElem_map, List.getElem_map, hname, hdecl]
      exact hnames.getElem_inj_iff.mp hget
    exact hin
  · intro hin c hc
    have hmem := mem_attributes_of_inInterval hi (harities _ (List.mem_of_getElem? hi)) hin he
    exact (FuncDecl.attributes_constants hmem).2 c hc

/-! ## Independence -/

/-- A child of the root: null if the category has no data points, and otherwise a tree
    of integer nodes and leaves over the registered attributes. -/
def LearnerInterface.IsChild (iface : LearnerInterface) (t : Tree) : Prop :=
  t.isNull = true ∨
    t.isIntTree = true ∧ t.Thresholds fun attr _ => attr < iface.integerIdentifier

/-- The conjecture for the relation with identifier `i` has the variables of the
    relation and mentions no others, and it is the same for all trees with the same
    child for the relation. -/
def Independent (iface : LearnerInterface) (children : ℕ → Tree) (i : ℕ) (decl : FuncDecl) : Prop :=
  ∃ c : Conjecture, c.vars = decl.constants ∧ (∀ x ∈ c.expr.constants, x ∈ decl.constants) ∧
    ∀ (random : FuncDecl → Bool) (children' : ℕ → Tree),
      (∀ j < iface.relations.length, iface.IsChild (children' j)) → children' i = children i →
      ∃ map, getUnorderedMap iface random (.categorical 0 iface.relations.length children') =
      .ok map ∧
        map decl = some c

theorem LearnerInterface.IsChild.translatable {t : Tree} (h : iface.IsChild t) :
    Translatable iface.attributes t := by
  refine h.imp_right fun ⟨hint, hthr⟩ => ⟨hint, ?_⟩
  obtain ⟨e, he, -⟩ := subtreeExpression_constants iface.attributes hint hthr
  exact ⟨e, he⟩

/-- A null child repeats the conjecture of a leaf before it. -/
theorem carried_leaf {l : List Tree} {j : ℕ} {b : Bool} {expression e : Expr}
    (hleaf : l[j]? = some (.leaf b)) (hnull : l[j + 1]? = some .null)
    (h : (l.take (j + 2)).foldlM (nextExpression attributes) expression = .ok e) :
    e = .boolVal b := by
  rw [List.take_add_one, hnull, Option.toList_some, List.foldlM_append, bind_ok] at h
  obtain ⟨expression', hfold, hlast⟩ := h
  have hbefore := carried_of_not_null hleaf rfl (.inr ⟨rfl, _, rfl⟩) hfold
  obtain rfl := Except.ok.inj hbefore
  exact (Except.ok.inj hlast).symm

theorem eq_null {t : Tree} (h : t.isNull = true) : t = .null := by
  cases t with
  | null => rfl
  | leaf b => simp [Tree.isNull] at h
  | int a θ l r => simp [Tree.isNull] at h
  | categorical a n cs => simp [Tree.isNull] at h

/-- If the child of a relation after the first one is null, the conjecture follows the
    child before it. -/
theorem not_independent_of_null (hnd : iface.relations.Nodup) {children : ℕ → Tree}
    (hchildren : ∀ j < iface.relations.length, iface.IsChild (children j))
    (hi : iface.relations[i + 1]? = some decl) (hnull : children (i + 1) = .null) :
    ¬ Independent iface children (i + 1) decl := by
  rintro ⟨c, -, -, hall⟩
  obtain ⟨hlt, -⟩ := List.getElem?_eq_some_iff.mp hi
  have hvalue : ∀ b, c.expr = .boolVal b := by
    intro b
    have hchildren' : ∀ j < iface.relations.length,
        iface.IsChild (Function.update children i (.leaf b) j) := by
      intro j hj
      by_cases hji : j = i
      · rw [hji, Function.update_self]
        exact .inr ⟨rfl, trivial⟩
      · rw [Function.update_of_ne hji]
        exact hchildren j hj
    obtain ⟨map, hrun, hmap⟩ := hall (fun _ => false) (Function.update children i (.leaf b))
      hchildren' (Function.update_of_ne (by omega) _ _)
    obtain ⟨map', hrun', hmap'⟩ := getUnorderedMap_categorical hnd (fun _ => false) 0 le_rfl
      fun j hj => (hchildren' j hj).translatable
    obtain rfl := Except.ok.inj (hrun.symm.trans hrun')
    obtain ⟨e, hfold, he⟩ := hmap' (i + 1) decl hlt hi
    obtain rfl := Option.some.inj (hmap.symm.trans he)
    refine carried_leaf ?_ ?_ hfold
    · rw [List.getElem?_map, List.getElem?_range (by omega), Option.map_some, Function.update_self]
    · rw [List.getElem?_map, List.getElem?_range hlt, Option.map_some,
        Function.update_of_ne (by omega), hnull]
  have hfalse := (hvalue false).symm.trans (hvalue true)
  exact absurd (Expr.boolVal.inj hfalse) (by decide)

/-- The conjecture for a relation is independent iff the child for the relation is not
    null and uses attributes of the relation only, or the relation is the first one and
    its child is null. -/
theorem independent_iff {relations : List FuncDecl}
    (hcreate : LearnerInterface.create relations = .ok iface)
    (hnames : (relations.map FuncDecl.name).Nodup) {children : ℕ → Tree}
    (hchildren : ∀ j < relations.length, iface.IsChild (children j))
    (hi : relations[i]? = some decl) :
    Independent iface children i decl ↔
      (children i).isNull = true ∧ i = 0 ∨
        (children i).isNull = false ∧ ∀ attr ∈ usedAttributes (children i),
          iface.InInterval i attr := by
  obtain ⟨hrel, harities⟩ := LearnerInterface.create_ok hcreate
  subst hrel
  have hnd := hnames.of_map
  obtain ⟨hlt, -⟩ := List.getElem?_eq_some_iff.mp hi
  by_cases hnull : (children i).isNull = true
  · rw [hnull]
    simp only [true_and, Bool.true_eq_false, false_and, or_false]
    constructor
    · intro hindep
      by_contra hpos
      obtain ⟨j, rfl⟩ := Nat.exists_eq_succ_of_ne_zero hpos
      exact not_independent_of_null hnd hchildren hi (eq_null hnull) hindep
    · rintro rfl
      refine ⟨⟨.boolVal false, decl.constants⟩, rfl, by simp [Expr.constants], ?_⟩
      intro random children' hchildren' heq
      obtain ⟨map, hrun, hmap⟩ := getUnorderedMap_categorical hnd random 0 le_rfl
        fun j hj => (hchildren' j hj).translatable
      obtain ⟨e, hfold, he⟩ := hmap 0 decl hlt hi
      refine ⟨map, hrun, he.trans ?_⟩
      have hfirst : ((List.range iface.relations.length).map children').take 1 = [.null] := by
        rw [List.take_one, List.head?_map, List.head?_range, if_neg (by omega)]
        show [children' 0] = _
        rw [heq, eq_null hnull]
      rw [hfirst] at hfold
      rw [← Except.ok.inj hfold]
  · have hnotNull : (children i).isNull = false := Bool.not_eq_true _ ▸ hnull
    obtain ⟨hint, hthr⟩ := (hchildren i hlt).resolve_left hnull
    obtain ⟨e, he, hconst⟩ := subtreeExpression_constants iface.attributes hint hthr
    -- the conjecture is the expression of the child, whatever the other children are
    have hrun : ∀ (random : FuncDecl → Bool) (children' : ℕ → Tree),
        (∀ j < iface.relations.length, iface.IsChild (children' j)) → children' i = children i →
        ∃ map, getUnorderedMap iface random (.categorical 0 iface.relations.length children') =
          .ok map ∧ map decl = some ⟨e, decl.constants⟩ := by
      intro random children' hchildren' heq
      obtain ⟨map, hrun, hmap⟩ := getUnorderedMap_categorical hnd random 0 le_rfl
        fun j hj => (hchildren' j hj).translatable
      obtain ⟨e', hfold, he'⟩ := hmap i decl hlt hi
      have hown := carried_of_not_null (by simp [hlt]) (heq ▸ hnotNull)
        (hchildren' i hlt).translatable hfold
      rw [heq, he] at hown
      obtain rfl := Except.ok.inj hown
      exact ⟨map, hrun, he'⟩
    have hscope : (∀ c ∈ e.constants, c ∈ decl.constants) ↔
        ∀ attr ∈ usedAttributes (children i), iface.InInterval i attr := by
      have hused := usedAttributes_of_thresholds hthr
      constructor
      · intro hsub attr hattr
        have hget := List.getElem?_eq_getElem (hused attr hattr)
        exact (subset_constants_iff harities hnames hi hget).mp fun c hc =>
          hsub c ((hconst c).mpr ⟨attr, hattr, _, hget, hc⟩)
      · intro hin c hc
        obtain ⟨attr, hattr, a, ha, hca⟩ := (hconst c).mp hc
        exact (subset_constants_iff harities hnames hi ha).mpr (hin attr hattr) c hca
    rw [hnotNull]
    simp only [Bool.false_eq_true, false_and, true_and, false_or]
    rw [← hscope]
    constructor
    · rintro ⟨c, -, hsub, hall⟩
      obtain ⟨map, hmap, hc⟩ := hall (fun _ => false) children hchildren rfl
      obtain ⟨map', hmap', hc'⟩ := hrun (fun _ => false) children hchildren rfl
      obtain rfl := Except.ok.inj (hmap.symm.trans hmap')
      obtain rfl := Option.some.inj (hc.symm.trans hc')
      exact hsub
    · intro hsub
      exact ⟨⟨e, decl.constants⟩, rfl, hsub, hrun⟩

/-- Two relations with an integer argument each. -/
def counters : List FuncDecl := [⟨"p", [.int]⟩, ⟨"q", [.int]⟩]

theorem independent_iff_counters :
    Independent ⟨counters⟩ (fun j => if j = 0 then .leaf true else .int 1 3 (.leaf true)
    (.leaf false)) 1
      ⟨"q", [.int]⟩ := by
  have hnode : (⟨counters⟩ : LearnerInterface).IsChild (.int 1 3 (.leaf true) (.leaf false)) :=
    .inr ⟨rfl, by decide, trivial, trivial⟩
  refine (independent_iff (show LearnerInterface.create counters = .ok ⟨counters⟩ from rfl)
    (by decide) (fun j hj => ?_) rfl).mpr (.inr ⟨rfl, ?_⟩)
  · show (⟨counters⟩ : LearnerInterface).IsChild (if j = 0 then _ else _)
    split_ifs
    · exact .inr ⟨rfl, trivial⟩
    · exact hnode
  · intro attr hattr
    obtain rfl := List.mem_singleton.mp hattr
    exact ⟨by decide, by decide⟩

/-- No data point of `q` has been seen: its conjecture is the one of `p`, over the
    variable of `p`. -/
theorem not_independent_counters :
    (∀ random, ∃ map, getUnorderedMap ⟨counters⟩ random (.categorical 0 2 fun j =>
        if j = 0 then .int 0 0 (.leaf true) (.leaf false) else .null) = .ok map ∧
      map ⟨"q", [.int]⟩ = some ⟨.le (.const ⟨"p", 0, .int⟩) 0, [⟨"q", 0, .int⟩]⟩) ∧
    ¬ Independent ⟨counters⟩ (fun j => if j = 0 then .int 0 0 (.leaf true) (.leaf false) else .null)
      1
      ⟨"q", [.int]⟩ := by
  refine ⟨fun random => ⟨_, rfl, rfl⟩, not_independent_of_null (by decide) (fun j hj => ?_) rfl rfl⟩
  show (⟨counters⟩ : LearnerInterface).IsChild (if j = 0 then _ else _)
  split_ifs
  · exact .inr ⟨rfl, by decide, trivial, trivial⟩
  · exact .inl rfl

end HiceDt.Chc
