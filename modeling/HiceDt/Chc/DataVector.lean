import HiceDt.Lib.Machine
import HiceDt.Chc.LearnerInterface

/-!
# Data vectors

The vector that `get_int_data` (`chc_verifier/include/datapoint.h`, lines 86–131)
computes for a fresh data point, beside the attributes and the intervals that the
constructor of `learner_interface` registers.

Results:

* `LearnerInterface.partitioned`: the intervals partition the attributes.
* `getIntData_returns`: the vector has an entry for every attribute; the entries
  outside of the block of the relation are 0.
* `getIntData_aligned_iff`: the entries of the block are the values of the attributes,
  unless an argument is false: `bool_value` gives −1 for false.
-/

namespace HiceDt.Chc

open HiceDt Loop Machine

/-! ## Values and intervals -/

/-- `expr.bool_value ()` as an `int`: it is of type `Z3_lbool`, whose constants are
    `Z3_L_FALSE = -1` and `Z3_L_TRUE = 1` (`z3_api.h`, lines 98–103). -/
def lboolValue (b : Bool) : ℤ := if b then 1 else -1

/-- The value of an attribute expression as an integer, with 0 and 1 for false and
    true. -/
def attributeValue (ρ : Env) (e : Expr) : ℤ :=
  if e.isBool then (if e.evalBool ρ then 1 else 0) else e.evalInt ρ

namespace LearnerInterface

/-- The arguments of `add_intervals` for the relation with identifier `i` (lines 144
    and 184). -/
def interval (iface : LearnerInterface) (i : ℕ) : ℕ × ℕ :=
  (iface.baseValue i, iface.baseValue (i + 1) - 1)

/-- The attribute belongs to the interval of the relation. -/
def InInterval (iface : LearnerInterface) (i k : ℕ) : Prop :=
  (iface.interval i).1 ≤ k ∧ k ≤ (iface.interval i).2

/-- The intervals partition the indices of the attributes. -/
def Partitioned (iface : LearnerInterface) : Prop :=
  (∀ i < iface.relations.length, ∀ k, iface.InInterval i k → k < iface.integerIdentifier) ∧
    ∀ k < iface.integerIdentifier, ∃! i, i < iface.relations.length ∧ iface.InInterval i k

/-- The vector for arguments of the relation with identifier `i` is aligned with the
    attributes. -/
structure Aligned (iface : LearnerInterface) (i : ℕ) (decl : FuncDecl) (values : List Value)
    (data : List ℤ) : Prop where
  length : data.length = iface.integerIdentifier
  own : ∀ k, iface.InInterval i k →
    data[k]? = (iface.attributes[k]?).map (attributeValue (decl.env values))
  other : ∀ k < iface.integerIdentifier, ¬ iface.InInterval i k → data[k]? = some 0

variable {iface : LearnerInterface} {i : ℕ} {decl : FuncDecl}

theorem create_ok {relations : List FuncDecl} (h : create relations = .ok iface) :
    iface.relations = relations ∧ ∀ decl ∈ relations, 0 < decl.arity := by
  unfold create at h
  split_ifs at h with hany
  refine ⟨(Except.ok.inj h) ▸ rfl, fun decl hdecl => ?_⟩
  by_contra hpos
  exact hany (List.any_eq_true.mpr ⟨decl, hdecl, decide_eq_true (by omega)⟩)

/-! ## The intervals -/

theorem baseValue_succ (hi : iface.relations[i]? = some decl) :
    iface.baseValue (i + 1) = iface.baseValue i + decl.attributes.length := by
  unfold baseValue
  rw [List.take_add_one, hi, List.flatMap_append, List.length_append]
  simp

theorem baseValue_mono (iface : LearnerInterface) : Monotone iface.baseValue := by
  refine monotone_nat_of_le_succ fun i => ?_
  cases hi : iface.relations[i]? with
  | none =>
    have hle := List.getElem?_eq_none_iff.mp hi
    rw [baseValue, baseValue, List.take_of_length_le hle, List.take_of_length_le (by omega)]
  | some decl =>
    rw [baseValue_succ hi]
    omega

theorem baseValue_length (iface : LearnerInterface) :
    iface.baseValue iface.relations.length = iface.integerIdentifier := by
  rw [baseValue, List.take_length]
  rfl

/-- The interval of a relation that has an attribute. -/
theorem inInterval_iff (hi : iface.relations[i]? = some decl) (harity : 0 < decl.arity) (k : ℕ) :
    iface.InInterval i k ↔ iface.baseValue i ≤ k ∧
      k < iface.baseValue i + decl.attributes.length := by
  have hpos := decl.arity_le_attributes
  have hsucc := baseValue_succ hi
  show iface.baseValue i ≤ k ∧ k ≤ iface.baseValue (i + 1) - 1 ↔ _
  omega

theorem exists_block (iface : LearnerInterface) (k : ℕ) : ∀ n, k < iface.baseValue n →
    ∃ i < n, iface.baseValue i ≤ k ∧ k < iface.baseValue (i + 1) := by
  intro n
  induction n with
  | zero =>
    intro hk
    exact absurd hk (Nat.not_lt_zero k)
  | succ n ih =>
    intro hk
    by_cases hlt : k < iface.baseValue n
    · obtain ⟨i, hi, hblock⟩ := ih hlt
      exact ⟨i, by omega, hblock⟩
    · exact ⟨n, by omega, by omega, hk⟩

theorem partitioned (harity : ∀ decl ∈ iface.relations, 0 < decl.arity) : iface.Partitioned := by
  have hblock : ∀ i < iface.relations.length, ∀ k, iface.InInterval i k ↔
      iface.baseValue i ≤ k ∧ k < iface.baseValue (i + 1) := by
    intro i hlt k
    have hi := List.getElem?_eq_getElem hlt
    rw [inInterval_iff hi (harity _ (List.getElem_mem hlt)), ← baseValue_succ hi]
  refine ⟨fun i hlt k hk => ?_, fun k hk => ?_⟩
  · have hle := iface.baseValue_mono (Nat.succ_le_of_lt hlt)
    rw [baseValue_length] at hle
    exact lt_of_lt_of_le ((hblock i hlt k).mp hk).2 hle
  · rw [← baseValue_length] at hk
    obtain ⟨i, hlt, hbase⟩ := iface.exists_block k _ hk
    refine ⟨i, ⟨hlt, (hblock i hlt k).mpr hbase⟩, ?_⟩
    rintro j ⟨hj, hin⟩
    have hbase' := (hblock j hj k).mp hin
    rcases lt_trichotomy j i with hji | rfl | hij
    · have hle := iface.baseValue_mono (Nat.succ_le_of_lt hji)
      rw [Nat.succ_eq_add_one] at hle
      omega
    · rfl
    · have hle := iface.baseValue_mono (Nat.succ_le_of_lt hij)
      rw [Nat.succ_eq_add_one] at hle
      omega

end LearnerInterface

/-! ## The vector -/

/-- The entry for a value. -/
def Value.data (boolValue : Bool → ℤ) : Value → ℤ
  | .bool b => boolValue b
  | .int n => n

theorem intValue_eq {boolValue : Bool → ℤ} {v : Value} (hfit : ∀ n, v = .int n → IsInt32 n) :
    intValue boolValue v = .ok (v.data boolValue) := by
  cases v with
  | bool b => rfl
  | int n =>
    have hn : (-2 ^ 31 ≤ n ∧ n < 2 ^ 31) := hfit n rfl
    simp only [intValue, decide_eq_true hn, assert_true, bind, Except.bind]
    rfl

theorem Evaluates.attributeValue {ρ : Env} {e : Expr} {v : Value} (h : Evaluates ρ e v) :
    attributeValue ρ e = v.data fun b => if b then 1 else 0 := by
  unfold Chc.attributeValue
  cases v with
  | bool b =>
    rw [if_pos h.1, h.2]
    rfl
  | int n =>
    rw [if_neg (by rw [h.1]; simp), h.2]
    rfl

variable {iface : LearnerInterface} {i : ℕ} {decl : FuncDecl} {values : List Value}

/-- Zeros, the entries for the values and the derived values, and zeros. -/
theorem getIntData_returns (hi : iface.relations[i]? = some decl) (harity : 0 < decl.arity)
    (hsort : values.map Value.sort = decl.domain)
    (hfit : ∀ n, .int n ∈ withDerived values → IsInt32 n) :
    getIntData lboolValue (iface.baseValue i) iface.integerIdentifier values =
      .ok (List.replicate (iface.baseValue i) 0 ++
        (withDerived values).map (Value.data lboolValue) ++
        List.replicate ((iface.relations.drop (i + 1)).flatMap FuncDecl.attributes).length 0) := by
  have hnumber := LearnerInterface.integerIdentifier_eq hi
  have hblock := length_withDerived hsort
  have hpos := decl.arity_le_attributes
  have hrun : (withDerived values).mapM (intValue lboolValue) =
      .ok ((withDerived values).map (Value.data lboolValue)) := by
    refine mapM_returns ?_
    rw [List.forall₂_map_right_iff, List.forall₂_same]
    rintro v hv
    exact intValue_eq fun n hn => hfit n (hn ▸ hv)
  have hrest : iface.integerIdentifier - iface.baseValue i - (withDerived values).length =
      ((iface.relations.drop (i + 1)).flatMap FuncDecl.attributes).length := by omega
  rw [getIntData_eq (by omega) (by omega), hrun, hrest]
  rfl

theorem getElem?_block {α : Type} (before block after : List α) {k : ℕ} (hle : before.length ≤ k)
    (hlt : k < before.length + block.length) :
    (before ++ block ++ after)[k]? = block[k - before.length]? := by
  rw [List.append_assoc, List.getElem?_append_right hle, List.getElem?_append_left (by omega)]

theorem getElem?_outside {m n k : ℕ} {block : List ℤ} (hlt : k < m + block.length + n)
    (hout : ¬ (m ≤ k ∧ k < m + block.length)) :
    (List.replicate m 0 ++ block ++ List.replicate n 0)[k]? = some 0 := by
  by_cases hle : k < m
  · rw [List.append_assoc, List.getElem?_append_left (by rwa [List.length_replicate]),
      List.getElem?_replicate, if_pos hle]
  · rw [List.getElem?_append_right (by simp; omega), List.getElem?_replicate,
      if_pos (by simp; omega)]

theorem attributeValues (hsort : values.map Value.sort = decl.domain) :
    decl.attributes.map (attributeValue (decl.env values)) =
      (withDerived values).map (Value.data fun b => if b then 1 else 0) := by
  rw [← List.forall₂_eq_eq_eq, List.forall₂_map_left_iff, List.forall₂_map_right_iff]
  exact (attributes_evaluate (decl.constants_evaluate hsort)).imp fun _ _ h => h.attributeValue

/-- The derived values are integers. -/
theorem mem_withDerived_bool {b : Bool} : .bool b ∈ withDerived values ↔ .bool b ∈ values := by
  unfold withDerived
  rw [List.mem_append, or_iff_left]
  intro h
  obtain ⟨⟨v, v'⟩, -, hmem⟩ := List.mem_flatMap.mp h
  cases v <;> cases v' <;> simp [derivedValues] at hmem

theorem data_eq_iff : (withDerived values).map (Value.data lboolValue) =
      (withDerived values).map (Value.data fun b => if b then 1 else 0) ↔
    .bool false ∉ values := by
  rw [List.map_inj_left, ← mem_withDerived_bool]
  constructor
  · intro h hmem
    exact absurd (h _ hmem) (by decide)
  · intro hno v hv
    match v, hv with
    | .bool true, _ => rfl
    | .bool false, hv => exact absurd hv hno
    | .int n, _ => rfl

/-- The vector of a fresh data point is aligned with the attributes iff no argument is
    false. -/
theorem getIntData_aligned_iff {relations : List FuncDecl}
    (hcreate : LearnerInterface.create relations = .ok iface)
    (hi : relations[i]? = some decl) (hsort : values.map Value.sort = decl.domain)
    (hfit : ∀ n, .int n ∈ withDerived values → IsInt32 n) :
    (iface.Partitioned ∧ ∃ data,
      getIntData lboolValue (iface.baseValue i) iface.integerIdentifier values = .ok data ∧
        iface.Aligned i decl values data) ↔ Value.bool false ∉ values := by
  obtain ⟨hrel, harities⟩ := LearnerInterface.create_ok hcreate
  rw [← hrel] at hi harities
  have harity := harities decl (List.mem_of_getElem? hi)
  have hblock := length_withDerived hsort
  have hnumber := LearnerInterface.integerIdentifier_eq hi
  have hin := LearnerInterface.inInterval_iff hi harity
  rw [← data_eq_iff, ← attributeValues hsort, getIntData_returns hi harity hsort hfit,
    and_iff_right (LearnerInterface.partitioned harities)]
  set block := (withDerived values).map (Value.data lboolValue) with hdef
  have hlen : block.length = decl.attributes.length := by rw [hdef, List.length_map, hblock]
  have hown : ∀ k, iface.InInterval i k →
      (List.replicate (iface.baseValue i) (0 : ℤ) ++ block ++ List.replicate
        ((iface.relations.drop (i + 1)).flatMap FuncDecl.attributes).length 0)[k]? =
          block[k - iface.baseValue i]? ∧
      (iface.attributes[k]?).map (attributeValue (decl.env values)) =
        (decl.attributes.map (attributeValue (decl.env values)))[k - iface.baseValue i]? := by
    intro k hk
    obtain ⟨hle, hlt⟩ := (hin k).mp hk
    have hbefore : ((iface.relations.take i).flatMap FuncDecl.attributes).length =
      iface.baseValue i := rfl
    rw [getElem?_block _ _ _ (by rwa [List.length_replicate])
      (by rw [List.length_replicate]; omega),
      List.length_replicate, LearnerInterface.attributes_eq hi,
      getElem?_block _ _ _ (by rwa [hbefore]) (by rwa [hbefore]), hbefore]
    exact ⟨rfl, List.getElem?_map.symm⟩
  constructor
  · rintro ⟨data, hdata, haligned⟩
    obtain rfl := Except.ok.inj hdata
    refine List.ext_getElem? fun j => ?_
    by_cases hj : j < decl.attributes.length
    · have hk := (hin (iface.baseValue i + j)).mpr ⟨by omega, by omega⟩
      have h := haligned.own _ hk
      rwa [(hown _ hk).1, (hown _ hk).2, Nat.add_sub_cancel_left] at h
    · rw [List.getElem?_eq_none (by omega), List.getElem?_eq_none (by rw [List.length_map]; omega)]
  · intro heq
    refine ⟨_, rfl, ?_, fun k hk => ?_, fun k hk hout => ?_⟩
    · rw [List.length_append, List.length_append, List.length_replicate, List.length_replicate]
      omega
    · rw [(hown k hk).1, (hown k hk).2, heq]
    · rw [hin] at hout
      exact getElem?_outside (by omega) (by rwa [hlen])

/-- Two relations; the second one has a Boolean and an integer argument. -/
def flagged : List FuncDecl := [⟨"p", [.int]⟩, ⟨"q", [.bool, .int]⟩]

theorem getIntData_aligned_iff_flagged :
    ((⟨flagged⟩ : LearnerInterface).Partitioned ∧ ∃ data,
      getIntData lboolValue ((⟨flagged⟩ : LearnerInterface).baseValue 1)
          (⟨flagged⟩ : LearnerInterface).integerIdentifier [.bool true, .int 5] = .ok data ∧
        (⟨flagged⟩ : LearnerInterface).Aligned 1 ⟨"q", [.bool, .int]⟩ [.bool true, .int 5] data) ↔
      Value.bool false ∉ [Value.bool true, .int 5] :=
  getIntData_aligned_iff (show LearnerInterface.create flagged = .ok ⟨flagged⟩ from rfl) rfl rfl (by
    intro n hn
    have h : n = 5 := by simpa [withDerived, pairs, derivedValues] using hn
    rw [h]
    decide)

/-- The entry for an argument that is false is −1 and not 0. -/
theorem getIntData_false : ¬ ((⟨flagged⟩ : LearnerInterface).Partitioned ∧ ∃ data,
    getIntData lboolValue ((⟨flagged⟩ : LearnerInterface).baseValue 1)
        (⟨flagged⟩ : LearnerInterface).integerIdentifier [.bool false, .int 5] = .ok data ∧
      (⟨flagged⟩ : LearnerInterface).Aligned 1 ⟨"q", [.bool, .int]⟩ [.bool false, .int 5]
        data) := by
  rintro ⟨-, data, hrun, haligned⟩
  have hdata : data = [0, -1, 5] := by
    rw [getIntData_eq (by decide) (by decide)] at hrun
    exact (Except.ok.inj hrun).symm
  have hown := haligned.own 1 (by unfold LearnerInterface.InInterval; decide)
  rw [hdata] at hown
  exact absurd hown (by decide)

end HiceDt.Chc
