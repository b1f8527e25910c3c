import Mathlib.Algebra.Group.Int.Defs
import HiceDt.Lib.Loop
import HiceDt.Chc.Z3

/-!
# Attributes and data points of the CHC teacher

Model of the constructor of `learner_interface`
(`chc_verifier/include/learner_interface.h`, lines 90–189) and of `get_int_data` and
`get_categorical_data` (`chc_verifier/include/datapoint.h`, lines 77–131). Every
relation has a block of integer attributes: its arguments, and the sums and
differences of any two arguments of sort `Int`.

Results:

* `getIntData_eq`: the blocks of a data point.
* `attributes_agree`: the attribute expressions evaluate to the data.
-/

namespace HiceDt.Chc

open HiceDt Loop

/-! ## Attributes -/

/-- The pairs that two nested loops over `first_index < second_index` visit. -/
def pairs {α : Type} : List α → List (α × α)
  | [] => []
  | a :: l => l.map (fun b => (a, b)) ++ pairs l

/-- The constants for the arguments of a relation (lines 145–154). -/
def FuncDecl.constants (decl : FuncDecl) : List Const :=
  decl.domain.mapIdx fun i sort => ⟨decl.name, i, sort⟩

/-- The derived attributes for two arguments (lines 166–178). -/
def derivedAttributes (p : Const × Const) : List Expr :=
  if p.1.sort = .int ∧ p.2.sort = .int then
    [.add (.const p.1) (.const p.2), .sub (.const p.1) (.const p.2)]
  else []

/-- The block of attributes of a relation. -/
def FuncDecl.attributes (decl : FuncDecl) : List Expr :=
  decl.constants.map .const ++ (pairs decl.constants).flatMap derivedAttributes

/-- `learner_interface`: the relations in the order in which they get their
    identifiers. -/
structure LearnerInterface where
  relations : List FuncDecl
deriving Repr

namespace LearnerInterface

/-- The constructor. -/
def create (relations : List FuncDecl) : Except Error LearnerInterface :=
  if relations.any fun decl => decl.arity = 0 then
    .error (.runtimeError "Uninterpreted predicates with no arguments are not allowed")
  else .ok ⟨relations⟩

/-- `integer_identifier_to_attribute`. -/
def attributes (iface : LearnerInterface) : List Expr := iface.relations.flatMap FuncDecl.attributes

/-- The final value of `integer_identifier`. -/
def integerIdentifier (iface : LearnerInterface) : ℕ := iface.attributes.length

/-- `relation_to_base_value` for the relation with identifier `i`. -/
def baseValue (iface : LearnerInterface) (i : ℕ) : ℕ :=
  ((iface.relations.take i).flatMap FuncDecl.attributes).length

end LearnerInterface

/-! ## Data points -/

/-- The derived values for two arguments. -/
def derivedValues (p : Value × Value) : List Value :=
  match p with
  | (.int a, .int b) => [.int (a + b), .int (a - b)]
  | _ => []

/-- `values` after the derived values are added. -/
def withDerived (values : List Value) : List Value := values ++ (pairs values).flatMap derivedValues

/-- The data for a value; `boolValue` is the conversion of `expr.bool_value ()` to
    `int`. A numeral has to fit into an `int`. -/
def intValue (boolValue : Bool → ℤ) : Value → Except Error ℤ
  | .bool b => .ok (boolValue b)
  | .int n => do
    assert (-2 ^ 31 ≤ n ∧ n < 2 ^ 31)
    return n

/-- The loop of `get_int_data` (lines 109–129). The inner loop counts
    `int_data_index` up once for each value, and the outer loop once more. -/
def intDataLoop (boolValue : Bool → ℤ) (base number : ℕ) (values : List Value)
    (intDataIndex : ℕ) : Except Error (List ℤ) :=
  if intDataIndex ≤ number then
    if intDataIndex < base ∨ base + values.length ≤ intDataIndex then do
      let rest ← intDataLoop boolValue base number values (intDataIndex + 1)
      return 0 :: rest
    else do
      let block ← values.mapM (intValue boolValue)
      let rest ← intDataLoop boolValue base number values (intDataIndex + values.length + 1)
      return block ++ rest
  else .ok []
termination_by number + 1 - intDataIndex

/-- `get_int_data`. -/
def getIntData (boolValue : Bool → ℤ) (base number : ℕ) (values : List Value) :
    Except Error (List ℤ) :=
  intDataLoop boolValue base number (withDerived values) 0

/-- The data point of the learner for arguments of the relation with identifier
    `i`. -/
def learnerDatapoint (iface : LearnerInterface) (boolValue : Bool → ℤ) (i : ℕ)
    (values : List Value) : Except Error Datapoint := do
  let intData ← getIntData boolValue (iface.baseValue i) iface.integerIdentifier values
  return { intData := intData, categoricalData := [i] }

/-! ## The blocks of a data point -/

/-- The indices after the block get zeros. -/
theorem intDataLoop_after (boolValue : Bool → ℤ) (base number : ℕ) (values : List Value) :
    ∀ n index, number + 1 - index = n → base + values.length ≤ index →
      intDataLoop boolValue base number values index = .ok (List.replicate n 0) := by
  intro n
  induction n with
  | zero =>
    intro index hn _
    rw [intDataLoop, if_neg (by omega)]
    rfl
  | succ n ih =>
    intro index hn hle
    rw [intDataLoop, if_pos (by omega), if_pos (.inr hle), ih (index + 1) (by omega) (by omega)]
    rfl

/-- The indices before the block get zeros, too. -/
theorem intDataLoop_before {boolValue : Bool → ℤ} {base number : ℕ} {values : List Value}
    (hpos : 0 < values.length) (hle : base + values.length ≤ number) :
    ∀ n index, base - index = n → index ≤ base →
      intDataLoop boolValue base number values index = do
        let block ← values.mapM (intValue boolValue)
        return List.replicate n 0 ++ block ++ List.replicate (number - base - values.length) 0 := by
  intro n
  induction n with
  | zero =>
    intro index hn hindex
    obtain rfl : index = base := by omega
    rw [intDataLoop, if_pos (by omega), if_neg (by omega),
      intDataLoop_after boolValue index number values (number - index - values.length) _
        (by omega) (by omega)]
    rfl
  | succ n ih =>
    intro index hn hindex
    rw [intDataLoop, if_pos (by omega), if_pos (.inl (by omega)),
      ih (index + 1) (by omega) (by omega)]
    cases values.mapM (intValue boolValue) with
    | error e => rfl
    | ok block => rfl

/-- The data: zeros, the values with the derived ones, and zeros. -/
theorem getIntData_eq {boolValue : Bool → ℤ} {base number : ℕ} {values : List Value}
    (hpos : 0 < (withDerived values).length) (hle : base + (withDerived values).length ≤ number) :
    getIntData boolValue base number values = do
      let block ← (withDerived values).mapM (intValue boolValue)
      return List.replicate base 0 ++ block ++
        List.replicate (number - base - (withDerived values).length) 0 :=
  intDataLoop_before hpos hle base 0 rfl (Nat.zero_le _)

/-! ## Attributes and data -/

variable {ρ : Env}

/-- The expression has the value. -/
def Evaluates (ρ : Env) (e : Expr) : Value → Prop
  | .bool b => e.isBool = true ∧ e.evalBool ρ = b
  | .int n => e.isBool = false ∧ e.evalInt ρ = n

/-- The integer in the data point stands for the value of the expression: one for
    true, and something else for false. -/
def Agrees (ρ : Env) (e : Expr) (n : ℤ) : Prop :=
  if e.isBool then e.evalBool ρ = true ↔ n = 1 else e.evalInt ρ = n

theorem Evaluates.agrees {boolValue : Bool → ℤ} (htrue : boolValue true = 1)
    (hfalse : boolValue false ≠ 1) {e : Expr} {v : Value} {n : ℤ} (h : Evaluates ρ e v)
    (hn : intValue boolValue v = .ok n) : Agrees ρ e n := by
  cases v with
  | bool b =>
    obtain rfl := Except.ok.inj hn
    unfold Agrees
    rw [if_pos h.1, h.2]
    cases b with
    | true => simp [htrue]
    | false => simp [hfalse]
  | int m =>
    unfold intValue at hn
    rw [bind_ok] at hn
    obtain ⟨-, -, hret⟩ := hn
    obtain rfl := Except.ok.inj hret
    unfold Agrees
    rw [if_neg (by rw [h.1]; simp)]
    exact h.2

theorem mem_of_mem_pairs {α : Type} {l : List α} {p : α × α} (hp : p ∈ pairs l) :
    p.1 ∈ l ∧ p.2 ∈ l := by
  induction l with
  | nil => simp [pairs] at hp
  | cons a l ih =>
    rcases List.mem_append.mp hp with h | h
    · obtain ⟨b, hb, rfl⟩ := List.mem_map.mp h
      exact ⟨List.mem_cons_self, List.mem_cons_of_mem _ hb⟩
    · exact ⟨List.mem_cons_of_mem _ (ih h).1, List.mem_cons_of_mem _ (ih h).2⟩

theorem forall₂_pairs {α β : Type} {R : α → β → Prop} {l : List α} {l' : List β}
    (h : List.Forall₂ R l l') :
    List.Forall₂ (fun p q => R p.1 q.1 ∧ R p.2 q.2) (pairs l) (pairs l') := by
  induction h with
  | nil => exact .nil
  | cons hab hl ih =>
    refine List.rel_append ?_ ih
    rw [List.forall₂_map_left_iff, List.forall₂_map_right_iff]
    exact hl.imp fun _ _ hcd => ⟨hab, hcd⟩

theorem Evaluates.sort_eq {c : Const} {v : Value} (h : Evaluates ρ (.const c) v) :
    c.sort = v.sort := by
  cases v with
  | bool b => exact of_decide_eq_true h.1
  | int n =>
    have hne : c.sort ≠ .bool := of_decide_eq_false h.1
    cases hc : c.sort with
    | bool => exact absurd hc hne
    | int => rfl

theorem derived_evaluates {c c' : Const} {v v' : Value} (h : Evaluates ρ (.const c) v)
    (h' : Evaluates ρ (.const c') v') :
    List.Forall₂ (Evaluates ρ) (derivedAttributes (c, c')) (derivedValues (v, v')) := by
  have hs := h.sort_eq
  have hs' := h'.sort_eq
  cases v with
  | bool b =>
    have hno : ¬ (c.sort = .int ∧ c'.sort = .int) := by
      rw [hs]
      simp [Value.sort]
    rw [derivedAttributes, if_neg hno]
    exact .nil
  | int a =>
    cases v' with
    | bool b =>
      have hno : ¬ (c.sort = .int ∧ c'.sort = .int) := by
        rw [hs']
        simp [Value.sort]
      rw [derivedAttributes, if_neg hno]
      exact .nil
    | int b =>
      rw [derivedAttributes, if_pos ⟨hs, hs'⟩]
      refine .cons ⟨rfl, ?_⟩ (.cons ⟨rfl, ?_⟩ .nil)
      · show Expr.evalInt ρ (.const c) + Expr.evalInt ρ (.const c') = a + b
        rw [h.2, h'.2]
      · show Expr.evalInt ρ (.const c) - Expr.evalInt ρ (.const c') = a - b
        rw [h.2, h'.2]

/-- The block of a relation evaluates to the values of its arguments. -/
theorem attributes_evaluate {decl : FuncDecl} {values : List Value}
    (hval : List.Forall₂ (fun c v => Evaluates ρ (.const c) v) decl.constants values) :
    List.Forall₂ (Evaluates ρ) decl.attributes (withDerived values) := by
  refine List.rel_append ?_ (List.rel_flatMap (forall₂_pairs hval) fun _ _ h =>
    derived_evaluates h.1 h.2)
  rw [List.forall₂_map_left_iff]
  exact hval

/-! ## The arguments of a relation -/

/-- The values of the constants of a relation when it has these arguments. -/
def FuncDecl.env (decl : FuncDecl) (values : List Value) : Env :=
  fun c => (decl.constants.zip values).lookup c

theorem FuncDecl.length_constants (decl : FuncDecl) : decl.constants.length = decl.arity :=
  List.length_mapIdx

theorem FuncDecl.nodup_constants (decl : FuncDecl) : decl.constants.Nodup := by
  rw [List.Nodup, List.pairwise_iff_getElem]
  intro i j hi hj hij heq
  have hindex : decl.constants[i].index = decl.constants[j].index := by rw [heq]
  simp only [FuncDecl.constants, List.getElem_mapIdx] at hindex
  omega

theorem FuncDecl.relation_of_mem {decl : FuncDecl} {c : Const} (hc : c ∈ decl.constants) :
    c.relation = decl.name := by
  obtain ⟨i, hi, rfl⟩ := List.getElem_of_mem hc
  simp [FuncDecl.constants]

/-- Every constant of the relation has its argument as value. -/
theorem FuncDecl.constants_evaluate {decl : FuncDecl} {values : List Value}
    (hsort : values.map Value.sort = decl.domain) :
    List.Forall₂ (fun c v => Evaluates (decl.env values) (.const c) v) decl.constants values := by
  have hlen : decl.constants.length = values.length := by
    rw [decl.length_constants, FuncDecl.arity, ← hsort, List.length_map]
  rw [List.forall₂_iff_zip]
  refine ⟨hlen, fun {c v} hmem => ?_⟩
  have hρ : decl.env values c = some v := lookup_zip decl.nodup_constants _ hmem
  have hs : c.sort = v.sort := by
    obtain ⟨i, hi, heq⟩ := List.getElem_of_mem hmem
    rw [List.getElem_zip] at heq
    obtain ⟨rfl, rfl⟩ := Prod.mk.inj heq
    simp only [FuncDecl.constants, List.getElem_mapIdx, ← hsort, List.getElem_map]
  cases v with
  | bool b =>
    refine ⟨decide_eq_true hs, ?_⟩
    rw [Expr.evalBool, hρ]
  | int n =>
    refine ⟨decide_eq_false (by rw [hs]; simp [Value.sort]), ?_⟩
    rw [Expr.evalInt, hρ]

/-- The attributes of other relations do not depend on the arguments. -/
theorem FuncDecl.attributes_foreign {decl decl' : FuncDecl} (hne : decl'.name ≠ decl.name)
    (values : List Value) : ∀ e ∈ decl'.attributes, Agrees (decl.env values) e 0 := by
  have hρ : ∀ c ∈ decl'.constants, decl.env values c = none := by
    intro c hc
    rw [FuncDecl.env, List.lookup_eq_none_iff]
    intro p hp
    rw [bne_iff_ne]
    rintro rfl
    exact hne (relation_of_mem hc ▸ relation_of_mem (List.of_mem_zip hp).1)
  have hint : ∀ c ∈ decl'.constants, Expr.evalInt (decl.env values) (.const c) = 0 := by
    intro c hc
    rw [Expr.evalInt, hρ c hc]
  intro e he
  rcases List.mem_append.mp he with he | he
  · obtain ⟨c, hc, rfl⟩ := List.mem_map.mp he
    unfold Agrees
    split_ifs
    · rw [Expr.evalBool, hρ c hc]
      simp
    · exact hint c hc
  · obtain ⟨p, hp, he⟩ := List.mem_flatMap.mp he
    obtain ⟨h1, h2⟩ := mem_of_mem_pairs hp
    unfold derivedAttributes at he
    split_ifs at he
    · rcases List.mem_pair.mp he with rfl | rfl
      · show Expr.evalInt _ (.const p.1) + Expr.evalInt _ (.const p.2) = 0
        rw [hint _ h1, hint _ h2]
        rfl
      · show Expr.evalInt _ (.const p.1) - Expr.evalInt _ (.const p.2) = 0
        rw [hint _ h1, hint _ h2]
        rfl
    · simp at he

/-! ## The block of a relation -/

namespace LearnerInterface

variable {iface : LearnerInterface} {i : ℕ} {decl : FuncDecl}

theorem relations_eq (hi : iface.relations[i]? = some decl) :
    iface.relations = iface.relations.take i ++ decl :: iface.relations.drop (i + 1) := by
  obtain ⟨hlt, hget⟩ := List.getElem?_eq_some_iff.mp hi
  rw [← hget, List.cons_getElem_drop_succ, List.take_append_drop]

/-- The attributes before, of and after a relation. -/
theorem attributes_eq (hi : iface.relations[i]? = some decl) :
    iface.attributes = (iface.relations.take i).flatMap FuncDecl.attributes ++ decl.attributes ++
      (iface.relations.drop (i + 1)).flatMap FuncDecl.attributes := by
  unfold attributes
  conv_lhs => rw [relations_eq hi]
  rw [List.flatMap_append, List.flatMap_cons, List.append_assoc]

theorem integerIdentifier_eq (hi : iface.relations[i]? = some decl) :
    iface.integerIdentifier = iface.baseValue i + decl.attributes.length +
      ((iface.relations.drop (i + 1)).flatMap FuncDecl.attributes).length := by
  rw [integerIdentifier, attributes_eq hi, List.length_append, List.length_append]
  rfl

end LearnerInterface

theorem FuncDecl.arity_le_attributes (decl : FuncDecl) : decl.arity ≤ decl.attributes.length := by
  rw [FuncDecl.attributes, List.length_append, List.length_map, decl.length_constants]
  omega

theorem length_withDerived {decl : FuncDecl} {values : List Value}
    (hsort : values.map Value.sort = decl.domain) :
    (withDerived values).length = decl.attributes.length :=
  (attributes_evaluate (decl.constants_evaluate hsort)).length_eq.symm

/-- The data point for arguments of a relation stands for the values of all
    attributes. -/
theorem attributes_agree (iface : LearnerInterface) {boolValue : Bool → ℤ}
    (htrue : boolValue true = 1) (hfalse : boolValue false ≠ 1)
    (hnames : (iface.relations.map FuncDecl.name).Nodup) {i : ℕ} {decl : FuncDecl}
    (hi : iface.relations[i]? = some decl) (harity : 0 < decl.arity) {values : List Value}
    (hsort : values.map Value.sort = decl.domain) {d : Datapoint}
    (hd : learnerDatapoint iface boolValue i values = .ok d) :
    d.categoricalData = [i] ∧
      List.Forall₂ (Agrees (decl.env values)) iface.attributes d.intData := by
  have hne : ∀ decl' ∈ iface.relations.take i ++ iface.relations.drop (i + 1),
      decl'.name ≠ decl.name := by
    intro decl' hmem heq
    rw [LearnerInterface.relations_eq hi, List.map_append, List.map_cons,
      List.nodup_middle] at hnames
    refine (List.nodup_cons.mp hnames).1 ?_
    rw [← List.map_append, ← heq]
    exact List.mem_map_of_mem hmem
  have hown := attributes_evaluate (decl.constants_evaluate hsort)
  have hblock := length_withDerived hsort
  have hpos := decl.arity_le_attributes
  have hnumber := LearnerInterface.integerIdentifier_eq hi
  unfold learnerDatapoint at hd
  rw [bind_ok] at hd
  obtain ⟨data, hdata, hret⟩ := hd
  obtain rfl := Except.ok.inj hret
  refine ⟨rfl, ?_⟩
  rw [getIntData_eq (by omega) (by omega), bind_ok] at hdata
  obtain ⟨block, hrun, hret⟩ := hdata
  obtain rfl := Except.ok.inj hret
  have hforeign : ∀ e ∈
      (iface.relations.take i ++ iface.relations.drop (i + 1)).flatMap FuncDecl.attributes,
      Agrees (decl.env values) e 0 := by
    intro e he
    obtain ⟨decl', hmem, he⟩ := List.mem_flatMap.mp he
    exact FuncDecl.attributes_foreign (hne decl' hmem) values e he
  rw [List.flatMap_append] at hforeign
  rw [LearnerInterface.attributes_eq hi]
  refine List.rel_append (List.rel_append ?_ ?_) ?_
  · exact forall₂_replicate rfl fun e he => hforeign e (List.mem_append_left _ he)
  · exact forall₂_trans (fun _ _ _ h hn => h.agrees htrue hfalse hn) hown (mapM_ok hrun)
  · exact forall₂_replicate (by omega) fun e he => hforeign e (List.mem_append_right _ he)

end HiceDt.Chc
