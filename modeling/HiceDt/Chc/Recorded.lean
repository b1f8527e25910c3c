import HiceDt.Chc.Equality
import HiceDt.Chc.Formula
import HiceDt.Chc.SampleStore

/-!
# Recorded counterexamples

The counterexamples that `learn2` passes to `add_counterexample`
(`chc_verifier/include/learner_interface.h`, lines 191–309) hold data points of the
verifier. Every data point becomes an object, whose node in the sample has the integer
data of the learner; a counterexample becomes a label or a Horn constraint.

Results:

* `Extends.trans`, `addCounterexample_extends`: the nodes that a call adds.
* `record_spec`: what one counterexample adds to the sample.
* `recordAll_models_iff`: the labels and Horn constraints of the sample say what the
  counterexamples say.
-/

namespace HiceDt.Chc

open HiceDt Loop Fol

variable {α : Type}

/-! ## Data points of the verifier -/

/-- The relation that is declared so. -/
def LearnerInterface.relationOf (iface : LearnerInterface) (f : Decl) : Option FuncDecl :=
  iface.relations.find? fun decl => decl.toDecl = f

/-- A value of a model; `get_int_data` throws at other sorts (`datapoint.h`, lines
    116–123). -/
def ofVal : Val α → Except Error Value
  | .bool b => .ok (.bool b)
  | .int n => .ok (.int n)
  | .other _ _ => .error (.runtimeError "Unsupported value type")

/-- The object for a data point; `relation_to_base_value.find (predicate)->second` needs
    an entry for the predicate. -/
def ofDatapoint (iface : LearnerInterface) (d : Smt.TeacherDatapoint α) :
    Except Error TeacherDatapoint :=
  match iface.relationOf d.predicate with
  | none => .error .undefinedBehaviour
  | some decl => do
    let values ← d.values.mapM ofVal
    return ⟨decl, values⟩

/-- A data point of the teacher as one of the verifier. -/
def TeacherDatapoint.toSmt (d : TeacherDatapoint) : Smt.TeacherDatapoint α :=
  ⟨d.predicate.toDecl, d.values.map Value.toVal⟩

theorem LearnerInterface.relationOf_eq_some {iface : LearnerInterface} {f : Decl}
    {decl : FuncDecl} :
    iface.relationOf f = some decl ↔ decl ∈ iface.relations ∧ decl.toDecl = f := by
  unfold relationOf
  constructor
  · intro h
    exact ⟨List.mem_of_find?_eq_some h, by simpa using List.find?_some h⟩
  · rintro ⟨hmem, rfl⟩
    cases hfind : iface.relations.find? fun decl' => decl'.toDecl = decl.toDecl with
    | none =>
      have := List.find?_eq_none.mp hfind decl hmem
      simp at this
    | some decl' =>
      have heq : decl'.toDecl = decl.toDecl := by simpa using List.find?_some hfind
      rw [FuncDecl.toDecl_inj heq]

theorem ofVal_ok {v : Val α} {w : Value} : ofVal v = .ok w ↔ w.toVal = v := by
  constructor
  · intro h
    cases v with
    | bool b => rw [← Except.ok.inj h]; rfl
    | int n => rw [← Except.ok.inj h]; rfl
    | other s a => cases h
  · rintro rfl
    cases w <;> rfl

theorem mapM_ofVal {vs : List (Val α)} {ws : List Value} :
    vs.mapM ofVal = .ok ws ↔ ws.map Value.toVal = vs := by
  constructor
  · intro h
    rw [← List.forall₂_eq_eq_eq, List.forall₂_map_left_iff]
    exact List.Forall₂.flip ((mapM_ok h).imp fun _ _ hvw => ofVal_ok.mp hvw)
  · rintro rfl
    refine mapM_returns ?_
    rw [List.forall₂_map_left_iff, List.forall₂_same]
    exact fun w _ => ofVal_ok.mpr rfl

theorem ofDatapoint_ok {iface : LearnerInterface} {d : Smt.TeacherDatapoint α}
    {d' : TeacherDatapoint} :
    ofDatapoint iface d = .ok d' ↔ d'.predicate ∈ iface.relations ∧ d'.toSmt = d := by
  obtain ⟨f, vs⟩ := d
  obtain ⟨decl, ws⟩ := d'
  unfold ofDatapoint TeacherDatapoint.toSmt
  constructor
  · intro h
    cases hrel : iface.relationOf f with
    | none =>
      rw [hrel] at h
      cases h
    | some decl' =>
      rw [hrel] at h
      obtain ⟨ws', hws, hret⟩ := bind_ok.mp h
      obtain ⟨rfl, rfl⟩ := TeacherDatapoint.mk.inj (Except.ok.inj hret)
      obtain ⟨hmem, rfl⟩ := LearnerInterface.relationOf_eq_some.mp hrel
      exact ⟨hmem, by rw [mapM_ofVal.mp hws]⟩
  · rintro ⟨hmem, h⟩
    injection h with hf hvs
    have hrel := LearnerInterface.relationOf_eq_some.mpr ⟨hmem, hf⟩
    rw [hrel]
    simp only [mapM_ofVal.mpr hvs]
    rfl

theorem mapM_ofDatapoint {iface : LearnerInterface} {ds : List (Smt.TeacherDatapoint α)}
    {ds' : List TeacherDatapoint} : ds.mapM (ofDatapoint iface) = .ok ds' ↔
      (∀ d ∈ ds', d.predicate ∈ iface.relations) ∧ ds'.map TeacherDatapoint.toSmt = ds := by
  constructor
  · intro h
    have hall := (mapM_ok h).imp fun _ _ hd => ofDatapoint_ok.mp hd
    refine ⟨fun d hd => ?_, ?_⟩
    · obtain ⟨_, -, hmem, -⟩ := forall₂_mem_right hall hd
      exact hmem
    · rw [← List.forall₂_eq_eq_eq, List.forall₂_map_left_iff]
      exact List.Forall₂.flip (hall.imp fun _ _ hd => hd.2)
  · rintro ⟨hmem, rfl⟩
    refine mapM_returns ?_
    rw [List.forall₂_map_left_iff, List.forall₂_same]
    exact fun d hd => ofDatapoint_ok.mpr ⟨hmem d hd, rfl⟩

/-! ## Recording -/

/-- The objects of a counterexample; there are no others. -/
def objectsOf (ds : List TeacherDatapoint) (o : ℕ) : TeacherDatapoint := ds.getD o ⟨⟨"", []⟩, []⟩

namespace Store

/-- `learner.add_counterexample (*ce)`; the objects are constructed by `check_chc`. -/
def record (iface : LearnerInterface) (boolValue : Bool → ℤ) (s : Store)
    (ce : Smt.HornCounterexample α) : Except Error Store := do
  let lhs ← ce.lhs.mapM (ofDatapoint iface)
  let rhs ← ce.rhs.mapM (ofDatapoint iface)
  addCounterexample iface boolValue { s with objects := objectsOf (lhs ++ rhs) }
    ⟨List.range' 0 lhs.length, List.range' lhs.length rhs.length⟩

/-- The calls of `add_counterexample` in a run. -/
def recordAll (iface : LearnerInterface) (boolValue : Bool → ℤ)
    (ces : List (Smt.HornCounterexample α)) : Except Error Store :=
  ces.foldlM (record iface boolValue) (initial (objectsOf []))

/-! ## New nodes -/

/-- A data point without its label. -/
def unlabelled (d : Datapoint) : Datapoint :=
    { d with isClassified := false, classification := false }

/-- The node at the position is for the data point, and has its integer data. -/
structure NodeAt (iface : LearnerInterface) (boolValue : Bool → ℤ) (s : Store)
    (d : TeacherDatapoint) (p : ℕ) : Prop where
  key : s.keys[p]? = some d.extended
  data : ∃ i d₁, iface.relations.idxOf? d.predicate = some i ∧
    learnerDatapoint iface boolValue i d.values = .ok d₁ ∧
    unlabelled (s.point p) = { d₁ with identifier := p }

/-- A call may only add nodes for its objects. -/
structure Extends (iface : LearnerInterface) (boolValue : Bool → ℤ) (args : ℕ → TeacherDatapoint)
    (s s' : Store) : Prop where
  keys : s.keys <+: s'.keys
  kept : ∀ p < s.nodes.length, unlabelled (s'.point p) = unlabelled (s.point p)
  node : ∀ p, s.nodes.length ≤ p → p < s'.nodes.length → ∃ o, NodeAt iface boolValue s' (args o) p

variable {iface : LearnerInterface} {boolValue : Bool → ℤ} {args : ℕ → TeacherDatapoint}
  {s s' s'' : Store} {obj p : ℕ} {d : TeacherDatapoint}

theorem length_le_of_keys (h : s.keys <+: s'.keys) : s.nodes.length ≤ s'.nodes.length := by
  rw [← length_keys, ← length_keys]
  exact h.length_le

theorem key_of_keys (h : s.keys <+: s'.keys) {key : TeacherDatapoint}
    (hp : s.keys[p]? = some key) : s'.keys[p]? = some key := by
  obtain ⟨L, hL⟩ := h
  obtain ⟨hlt, -⟩ := List.getElem?_eq_some_iff.mp hp
  rw [← hL, List.getElem?_append_left hlt, hp]

theorem NodeAt.lt (h : NodeAt iface boolValue s d p) : p < s.nodes.length := by
  obtain ⟨hlt, -⟩ := List.getElem?_eq_some_iff.mp h.key
  rwa [length_keys] at hlt

theorem NodeAt.extends (h : NodeAt iface boolValue s d p) (hkeys : s.keys <+: s'.keys)
    (hkept : unlabelled (s'.point p) = unlabelled (s.point p)) :
    NodeAt iface boolValue s' d p := by
  obtain ⟨i, d₁, hi, hd₁, hpoint⟩ := h.data
  exact ⟨key_of_keys hkeys h.key, i, d₁, hi, hd₁, hkept.trans hpoint⟩

theorem Extends.refl (s : Store) : Extends iface boolValue args s s :=
  ⟨List.prefix_rfl, fun _ _ => rfl, fun p hle hlt => by omega⟩

theorem Extends.trans (h : Extends iface boolValue args s s')
    (h' : Extends iface boolValue args s' s'') : Extends iface boolValue args s s'' := by
  have hlen := length_le_of_keys h.keys
  refine ⟨h.keys.trans h'.keys, fun p hp => ?_, fun p hle hlt => ?_⟩
  · rw [h'.kept p (by omega), h.kept p hp]
  · by_cases hp : p < s'.nodes.length
    · obtain ⟨o, ho⟩ := h.node p hle hp
      exact ⟨o, ho.extends h'.keys (h'.kept p hp)⟩
    · exact h'.node p (by omega) hlt

theorem emplace_ptrs (s : Store) (key : TeacherDatapoint) (d₁ : Datapoint) :
    (s.emplace key d₁).datapointPtrs = s.datapointPtrs ∧
      (s.emplace key d₁).objects = s.objects := by
  unfold emplace
  split <;> exact ⟨rfl, rfl⟩

theorem find_emplace (s : Store) (key : TeacherDatapoint) (d₁ : Datapoint) :
    ∃ p, (s.emplace key d₁).find key = some p := by
  refine Option.ne_none_iff_exists'.mp fun hno => find_eq_none.mp hno ?_
  unfold emplace
  cases hfind : s.find key with
  | some p =>
    by_contra hmem
    rw [find_eq_none.mpr hmem] at hfind
    cases hfind
  | none =>
    show key ∈ (s.nodes ++ [(key, d₁)]).map Prod.fst
    simp

/-- The state after `emplace` with the data of the learner. -/
def inserted (s : Store) (obj : ℕ) (key : TeacherDatapoint) (d₁ : Datapoint) : Store :=
  emplace { s with objects := Function.update s.objects obj key } key
    { d₁ with identifier := s.nodes.length }

/-- The body of the first `if` after the data of the learner is known. -/
theorem insert_eq (h : Inv args s) (hnone : s.find (s.objects obj) = none) {i : ℕ} {d₁ : Datapoint}
    (hi : iface.relations.idxOf? (args obj).predicate = some i)
    (hd₁ : learnerDatapoint iface boolValue i (args obj).values = .ok d₁) :
    ∃ p, s.insert iface boolValue obj =
      if ((s.inserted obj (args obj).extended d₁).point p).identifier =
          (s.inserted obj (args obj).extended d₁).indexOfDatapointPtrs
      then (s.inserted obj (args obj).extended d₁).addDatapoints p
      else .ok (s.inserted obj (args obj).extended d₁) := by
  have hargs : s.objects obj = args obj := by
    rcases h.objects obj with ho | ⟨ho, hmem⟩
    · exact ho
    · rw [find_eq_none, ho] at hnone
      exact absurd hmem hnone
  have hkey : (s.inserted obj (args obj).extended d₁).objects obj = (args obj).extended := by
    rw [inserted, (emplace_ptrs _ _ _).2]
    exact Function.update_self ..
  obtain ⟨p, hp⟩ : ∃ p, (s.inserted obj (args obj).extended d₁).find (args obj).extended = some p :=
    find_emplace _ _ _
  refine ⟨p, ?_⟩
  unfold insert
  rw [hargs, hi]
  simp only [hd₁, bind, Except.bind, indexOfDatapointPtrs_eq h.ptrs h.identifier,
    Function.update_self]
  rw [show emplace { s with objects := Function.update s.objects obj (args obj).extended }
    (args obj).extended { d₁ with identifier := s.nodes.length } =
      s.inserted obj (args obj).extended d₁ from rfl, hkey, hp]
  rfl

/-- The nodes after the body of the first `if`. -/
theorem insert_nodes (h : Inv args s) (hnone : s.find (s.objects obj) = none)
    (hrun : s.insert iface boolValue obj = .ok s') : s'.nodes = s.nodes ∨
      ∃ i d₁, iface.relations.idxOf? (args obj).predicate = some i ∧
        learnerDatapoint iface boolValue i (args obj).values = .ok d₁ ∧
        s'.nodes = s.nodes ++ [((args obj).extended,
          { d₁ with identifier := s.nodes.length })] := by
  have hargs : s.objects obj = args obj := by
    rcases h.objects obj with ho | ⟨ho, hmem⟩
    · exact ho
    · rw [find_eq_none, ho] at hnone
      exact absurd hmem hnone
  obtain ⟨i, hi⟩ : ∃ i, iface.relations.idxOf? (args obj).predicate = some i := by
    cases hi : iface.relations.idxOf? (args obj).predicate with
    | some i => exact ⟨i, rfl⟩
    | none =>
      rw [insert, hargs, hi] at hrun
      cases hrun
  obtain ⟨d₁, hd₁⟩ : ∃ d₁, learnerDatapoint iface boolValue i (args obj).values = .ok d₁ := by
    rw [insert, hargs, hi] at hrun
    obtain ⟨d₁, hd₁, -⟩ := bind_ok.mp hrun
    exact ⟨d₁, hd₁⟩
  obtain ⟨p, heq⟩ := insert_eq h hnone hi hd₁
  rw [heq] at hrun
  have hs' : s'.nodes = (s.inserted obj (args obj).extended d₁).nodes := by
    split_ifs at hrun
    · unfold addDatapoints at hrun
      split_ifs at hrun
      rw [← Except.ok.inj hrun]
    · rw [← Except.ok.inj hrun]
  rw [hs', inserted, emplace]
  split
  · exact .inl rfl
  · exact .inr ⟨i, d₁, hi, hd₁, rfl⟩

theorem extends_of_nodes (hnodes : s'.nodes = s.nodes ∨
      ∃ i d₁, iface.relations.idxOf? (args obj).predicate = some i ∧
        learnerDatapoint iface boolValue i (args obj).values = .ok d₁ ∧
        s'.nodes = s.nodes ++ [((args obj).extended, { d₁ with identifier := s.nodes.length })]) :
    Extends iface boolValue args s s' ∧ ∀ p, (s'.point p).label = (s.point p).label := by
  rcases hnodes with heq | ⟨i, d₁, hi, hd₁, heq⟩
  · have hpoint : ∀ p, s'.point p = s.point p := fun p => by rw [point, point, heq]
    refine ⟨⟨by rw [keys, keys, heq], fun p _ => by rw [hpoint], fun p hle hlt => ?_⟩,
      fun p => by rw [hpoint]⟩
    rw [heq] at hlt
    omega
  · have hdata : unlabelled { d₁ with identifier := s.nodes.length } =
          { d₁ with identifier := s.nodes.length } ∧
        Datapoint.label { d₁ with identifier := s.nodes.length } = none := by
      unfold learnerDatapoint at hd₁
      obtain ⟨data, -, hret⟩ := bind_ok.mp hd₁
      rw [← Except.ok.inj hret]
      exact ⟨rfl, rfl⟩
    have hkeys : s'.keys = s.keys ++ [(args obj).extended] := by
      rw [keys, keys, heq, List.map_append]
      rfl
    have hnew : s'.point s.nodes.length = { d₁ with identifier := s.nodes.length } := by
      rw [point, heq, List.getElem?_concat_length]
      rfl
    refine ⟨⟨hkeys ▸ List.prefix_append _ _, fun p hp => by rw [point_append heq hp],
      fun p hle hlt => ⟨obj, ?_, i, d₁, hi, hd₁, ?_⟩⟩, fun p => ?_⟩
    · rw [heq, List.length_append, List.length_singleton] at hlt
      obtain rfl : p = s.nodes.length := by omega
      rw [hkeys, ← length_keys, List.getElem?_concat_length]
    · rw [heq, List.length_append, List.length_singleton] at hlt
      obtain rfl : p = s.nodes.length := by omega
      rw [hnew, hdata.1]
    · rcases lt_trichotomy p s.nodes.length with hlt | rfl | hgt
      · rw [point_append heq hlt]
      · rw [hnew, hdata.2, label_of_ge le_rfl]
      · rw [label_of_ge hgt.le, label_of_ge]
        rw [heq, List.length_append, List.length_singleton]
        omega

theorem getUniqueLearnerDatapoint_extends (h : Inv args s)
    (hrun : s.getUniqueLearnerDatapoint iface boolValue obj = .ok (p, s')) :
    Extends iface boolValue args s s' ∧ ∀ q, (s'.point q).label = (s.point q).label := by
  unfold getUniqueLearnerDatapoint at hrun
  obtain ⟨s₁, hs₁, hrun⟩ := bind_ok.mp hrun
  have hsame : s₁ = s' := by
    split at hrun
    · cases hrun
    · exact (Prod.mk.inj (Except.ok.inj hrun)).2
  subst hsame
  unfold insertIfAbsent at hs₁
  split at hs₁
  · rename_i hnone
    exact extends_of_nodes (insert_nodes h hnone hs₁)
  · rw [← Except.ok.inj hs₁]
    exact ⟨.refl s, fun _ => rfl⟩

/-- A label may be added for the object. -/
theorem addLabel_extends (h : Inv args s) (hargs : ∀ o, (args o).Basic) {b : Bool}
    (hrun : s.addLabel iface boolValue obj b = .ok s') :
    Extends iface boolValue args s s' ∧ ∀ q b', (s'.point q).label = some b' →
      (s.point q).label = some b' ∨ Represents args s' obj q ∧ b' = b := by
  obtain ⟨⟨p, s₁⟩, hget, hrun⟩ := bind_ok.mp hrun
  obtain ⟨hext, hlabel⟩ := getUniqueLearnerDatapoint_extends h hget
  have hl := getUniqueLearnerDatapoint_spec h hargs hget
  have hlt := Represents.lt hl.inv hl.found
  dsimp only at hrun
  cases hc : (s₁.point p).isClassified with
  | true =>
    rw [hc, if_pos rfl] at hrun
    split_ifs at hrun
    obtain rfl : s₁ = s' := Except.ok.inj hrun
    exact ⟨hext, fun q b' hb' => .inl (by rw [← hlabel]; exact hb')⟩
  | false =>
    rw [hc] at hrun
    obtain rfl : s₁.setClassification p b = s' := Except.ok.inj hrun
    have hkeys := setClassification_keys s₁ p b
    have hpoint := setClassification_point s₁ b hlt hc
    have hkept : ∀ q, unlabelled ((s₁.setClassification p b).point q) =
        unlabelled (s₁.point q) := by
      intro q
      rw [hpoint]
      split_ifs with hq
      · rw [hq]
        rfl
      · rfl
    have hclass : Extends iface boolValue args s₁ (s₁.setClassification p b) := by
      refine ⟨by rw [hkeys], fun q _ => hkept q, fun q hle hlt' => ?_⟩
      rw [← length_keys, hkeys, length_keys] at hlt'
      omega
    refine ⟨hext.trans hclass, fun q b' hb' => ?_⟩
    rw [hpoint] at hb'
    split_ifs at hb' with hq
    · refine .inr ⟨?_, ?_⟩
      · rw [hq, Represents, find_eq, hkeys, ← find_eq]
        exact hl.found
      · exact (Option.some.inj hb').symm
    · exact .inl (by rw [← hlabel]; exact hb')

theorem getPoints_extends (hargs : ∀ o, (args o).Basic) {objs ps : List ℕ} (h : Inv args s)
    (hrun : getPoints iface boolValue s objs = .ok (ps, s')) :
    Extends iface boolValue args s s' ∧ ∀ q, (s'.point q).label = (s.point q).label := by
  induction objs generalizing s ps with
  | nil =>
    obtain ⟨-, rfl⟩ := Prod.mk.inj (Except.ok.inj hrun)
    exact ⟨.refl s, fun _ => rfl⟩
  | cons obj rest ih =>
    obtain ⟨⟨p, s₁⟩, hget, hrun⟩ := bind_ok.mp hrun
    obtain ⟨⟨ps', s₂⟩, hrest, hrun⟩ := bind_ok.mp hrun
    obtain ⟨-, rfl⟩ := Prod.mk.inj (Except.ok.inj hrun)
    obtain ⟨hext, hlabel⟩ := getUniqueLearnerDatapoint_extends h hget
    obtain ⟨hext', hlabel'⟩ := ih (getUniqueLearnerDatapoint_spec h hargs hget).inv hrest
    exact ⟨hext.trans hext', fun q => (hlabel' q).trans (hlabel q)⟩

/-- The label for a counterexample with one data point. -/
def LabelOf : HornCounterexample → ℕ → Bool → Prop
  | ⟨[], [obj]⟩, o, b => o = obj ∧ b = true
  | ⟨[obj], []⟩, o, b => o = obj ∧ b = false
  | _, _, _ => False

/-- The nodes and labels that a counterexample adds. -/
theorem addCounterexample_extends (h : Inv args s) (hargs : ∀ o, (args o).Basic)
    {ce : HornCounterexample} (hrun : s.addCounterexample iface boolValue ce = .ok s') :
    Extends iface boolValue args s s' ∧ ∀ q b, (s'.point q).label = some b →
      (s.point q).label = some b ∨ ∃ o, Represents args s' o q ∧ LabelOf ce o b := by
  unfold addCounterexample at hrun
  split at hrun
  · rename_i obj
    obtain ⟨hext, hlabel⟩ := addLabel_extends h hargs hrun
    exact ⟨hext, fun q b hb => (hlabel q b hb).imp_right fun ⟨hrep, hb⟩ => ⟨obj, hrep, rfl, hb⟩⟩
  · rename_i obj
    obtain ⟨hext, hlabel⟩ := addLabel_extends h hargs hrun
    exact ⟨hext, fun q b hb => (hlabel q b hb).imp_right fun ⟨hrep, hb⟩ => ⟨obj, hrep, rfl, hb⟩⟩
  · split_ifs at hrun
    obtain ⟨⟨cs, s₁⟩, hconc, hrun⟩ := bind_ok.mp hrun
    obtain ⟨⟨ps, s₂⟩, hprem, hrun⟩ := bind_ok.mp hrun
    obtain rfl : s₂.addHornConstraints ps cs.head? = s' := Except.ok.inj hrun
    obtain ⟨hext, hlabel⟩ := getPoints_extends hargs h hconc
    obtain ⟨hext', hlabel'⟩ := getPoints_extends hargs (getPoints_spec hargs h hconc).1 hprem
    have hhorn : Extends iface boolValue args s₂ (s₂.addHornConstraints ps cs.head?) :=
      ⟨List.prefix_rfl, fun _ _ => rfl, fun p hle hlt => absurd hlt (Nat.not_lt.mpr hle)⟩
    refine ⟨(hext.trans hext').trans hhorn, fun q b hb => .inl ?_⟩
    rw [← hlabel, ← hlabel']
    exact hb

/-! ## The sample -/

/-- The data points that are recorded: their values have the sorts of the arguments, and
    `V` holds for them. -/
structure Recordable (V : Value → Prop) (d : TeacherDatapoint) : Prop where
  sorted : d.Sorted
  values : ∀ v ∈ d.values, V v

/-- A sample: the nodes are for recordable data points, and are numbered in the order of
    their creation. -/
structure Sampled (V : Value → Prop) (iface : LearnerInterface) (boolValue : Bool → ℤ)
    (s : Store) : Prop where
  nodup : s.keys.Nodup
  ptrs : s.datapointPtrs = List.range s.nodes.length
  node : ∀ p < s.nodes.length, ∃ d, Recordable V d ∧ NodeAt iface boolValue s d p
  horn : ∀ pair ∈ s.hornIndexes, ∀ i ∈ pair.1 ∪ pair.2, i < s.nodes.length
  conclusion : ∀ pair ∈ s.hornIndexes, pair.2.card ≤ 1

variable {V : Value → Prop}

theorem NodeAt.identifier (h : NodeAt iface boolValue s d p) : (s.point p).identifier = p := by
  obtain ⟨i, d₁, -, -, hpoint⟩ := h.data
  have : (unlabelled (s.point p)).identifier = p := by rw [hpoint]
  exact this

/-- The objects of the next counterexample are constructed. -/
theorem Sampled.inv (h : Sampled V iface boolValue s) (args : ℕ → TeacherDatapoint) :
    Inv args { s with objects := args } := by
  refine ⟨h.nodup, fun key hkey => ?_, fun p hp => ?_, h.ptrs, fun o => .inl rfl, h.horn⟩
  · obtain ⟨p, hp, rfl⟩ := List.getElem_of_mem hkey
    have hlt : p < s.nodes.length := (length_keys s) ▸ hp
    obtain ⟨d, hd, hnode⟩ := h.node p hlt
    obtain ⟨_, hget⟩ := List.getElem?_eq_some_iff.mp hnode.key
    exact ⟨d, Sorted.basic hd.sorted, hget⟩
  · obtain ⟨d, -, hnode⟩ := h.node p hp
    exact hnode.identifier

theorem Sampled.initial (args : ℕ → TeacherDatapoint) :
    Sampled V iface boolValue (Store.initial args) :=
  ⟨List.nodup_nil, rfl, fun p hp => absurd hp (Nat.not_lt_zero p), List.forall_mem_nil _,
    List.forall_mem_nil _⟩

/-- The node for the data point. -/
def Represented (s : Store) (d : TeacherDatapoint) (p : ℕ) : Prop := s.find d.extended = some p

theorem Sampled.represented_iff (h : Sampled V iface boolValue s) :
    Represented s d p ↔ s.keys[p]? = some d.extended := find_eq_some h.nodup

/-- A labelling of the nodes agrees with the labels and the Horn constraints. -/
structure Models (s : Store) (μ : ℕ → Prop) : Prop where
  labels : ∀ p b, (s.point p).label = some b → (μ p ↔ b = true)
  horn : ∀ pair ∈ s.hornIndexes, (∀ i ∈ pair.1, μ i) → ∃ i ∈ pair.2, μ i

/-- What a labelling of data points says about the nodes. -/
def labelling (ν : TeacherDatapoint → Prop) (s : Store) (p : ℕ) : Prop :=
  ∃ d : TeacherDatapoint, d.Sorted ∧ Represented s d p ∧ ν d

/-- A node is for one data point only. -/
theorem Sampled.labelling_iff (h : Sampled V iface boolValue s) {ν : TeacherDatapoint → Prop}
    (hd : d.Sorted) (hp : Represented s d p) : labelling ν s p ↔ ν d := by
  constructor
  · rintro ⟨d', hd', hp', hν⟩
    rw [h.represented_iff] at hp hp'
    have hext : d'.extended = d.extended := Option.some.inj (hp'.symm.trans hp)
    rwa [← TeacherDatapoint.extended_inj (Sorted.basic hd') (Sorted.basic hd) hext]
  · exact fun hν => ⟨d, hd, hp, hν⟩

/-! ## One counterexample -/

/-- The counterexample with its data points as the teacher has them. -/
structure Converts (iface : LearnerInterface) (ce : Smt.HornCounterexample α)
    (lhs rhs : List TeacherDatapoint) : Prop where
  left : lhs.map TeacherDatapoint.toSmt = ce.lhs
  right : rhs.map TeacherDatapoint.toSmt = ce.rhs
  relations : ∀ d ∈ lhs ++ rhs, d.predicate ∈ iface.relations

/-- The labelling satisfies the counterexample. -/
def HoldsFor (ν : TeacherDatapoint → Prop) (lhs rhs : List TeacherDatapoint) : Prop :=
  (∀ d ∈ lhs, ν d) → ∃ d ∈ rhs, ν d

theorem record_ok {ce : Smt.HornCounterexample α} (h : s.record iface boolValue ce = .ok s') :
    ∃ lhs rhs, Converts iface ce lhs rhs ∧
      addCounterexample iface boolValue { s with objects := objectsOf (lhs ++ rhs) }
        ⟨List.range' 0 lhs.length, List.range' lhs.length rhs.length⟩ = .ok s' := by
  obtain ⟨lhs, hlhs, h⟩ := bind_ok.mp h
  obtain ⟨rhs, hrhs, h⟩ := bind_ok.mp h
  obtain ⟨hmem, hlhs⟩ := mapM_ofDatapoint.mp hlhs
  obtain ⟨hmem', hrhs⟩ := mapM_ofDatapoint.mp hrhs
  refine ⟨lhs, rhs, ⟨hlhs, hrhs, fun d hd => ?_⟩, h⟩
  exact (List.mem_append.mp hd).elim (hmem d) (hmem' d)

theorem objectsOf_recordable {ds : List TeacherDatapoint} (h : ∀ d ∈ ds, Recordable V d) (o : ℕ) :
    Recordable V (objectsOf ds o) := by
  unfold objectsOf
  by_cases ho : o < ds.length
  · rw [List.getD_eq_getElem _ _ ho]
    exact h _ (List.getElem_mem ho)
  · rw [List.getD_eq_default _ _ (by omega)]
    exact ⟨rfl, by simp⟩

theorem map_objectsOf (before ds after : List TeacherDatapoint) :
    (List.range' before.length ds.length).map (objectsOf (before ++ ds ++ after)) = ds := by
  refine List.ext_getElem (by simp) fun i hi hi' => ?_
  rw [List.getElem_map, List.getElem_range', Nat.one_mul, objectsOf, List.append_assoc,
    List.getD_append_right _ _ _ _ (by omega), Nat.add_sub_cancel_left,
    List.getD_append _ _ _ _ hi', List.getD_eq_getElem _ _ hi']

/-- The nodes for the objects are those for their data points. -/
theorem represents_objects (before after : List TeacherDatapoint) {ds : List TeacherDatapoint}
    {ps : List ℕ}
    (h : List.Forall₂ (Represents (objectsOf (before ++ ds ++ after)) s)
      (List.range' before.length ds.length) ps) : List.Forall₂ (Represented s) ds ps := by
  have hmap := map_objectsOf before ds after
  rw [← hmap, List.forall₂_map_left_iff]
  exact h

/-- What a counterexample leaves in the sample. -/
inductive Entry (s : Store) (lhs rhs : List TeacherDatapoint) : Prop
  | positive (d : TeacherDatapoint) (p : ℕ) (hlhs : lhs = []) (hrhs : rhs = [d])
    (hp : Represented s d p) (hlabel : (s.point p).label = some true)
  | negative (d : TeacherDatapoint) (p : ℕ) (hlhs : lhs = [d]) (hrhs : rhs = [])
    (hp : Represented s d p) (hlabel : (s.point p).label = some false)
  | horn (ps cs : List ℕ) (hlhs : List.Forall₂ (Represented s) lhs ps)
    (hrhs : List.Forall₂ (Represented s) rhs cs)
    (hpair : (ps.toFinset, cs.toFinset) ∈ s.hornIndexes)

theorem Entry.grows {lhs rhs : List TeacherDatapoint} (h : Entry s lhs rhs) (hg : Grows s s')
    (hhorn : s.hornIndexes <+: s'.hornIndexes) : Entry s' lhs rhs := by
  cases h with
  | positive d p hlhs hrhs hp hlabel =>
    exact .positive d p hlhs hrhs (hg.find hp) (hg.label p _ hlabel)
  | negative d p hlhs hrhs hp hlabel =>
    exact .negative d p hlhs hrhs (hg.find hp) (hg.label p _ hlabel)
  | horn ps cs hlhs hrhs hpair =>
    exact .horn ps cs (hlhs.imp fun _ _ hp => hg.find hp) (hrhs.imp fun _ _ hp => hg.find hp)
      (hhorn.subset hpair)

/-- A labelling that satisfies the sample satisfies the counterexample. -/
theorem Entry.holds {lhs rhs : List TeacherDatapoint} (h : Entry s lhs rhs) {μ : ℕ → Prop}
    (hμ : s.Models μ) {ν : TeacherDatapoint → Prop}
    (hν : ∀ d ∈ lhs ++ rhs, ∀ p, Represented s d p → (μ p ↔ ν d)) : HoldsFor ν lhs rhs := by
  intro hall
  cases h with
  | positive d p hlhs hrhs hp hlabel =>
    subst hrhs
    refine ⟨d, List.mem_singleton_self d, ?_⟩
    rw [← hν d (by simp) p hp, hμ.labels p true hlabel]
  | negative d p hlhs hrhs hp hlabel =>
    subst hlhs
    have hd := hall d (List.mem_singleton_self d)
    rw [← hν d (by simp) p hp, hμ.labels p false hlabel] at hd
    cases hd
  | horn ps cs hlhs hrhs hpair =>
    obtain ⟨c, hc, hμc⟩ := hμ.horn _ hpair fun i hi => by
      obtain ⟨d, hd, hp⟩ := forall₂_mem_right hlhs (List.mem_toFinset.mp hi)
      exact (hν d (List.mem_append_left _ hd) i hp).mpr (hall d hd)
    obtain ⟨d, hd, hp⟩ := forall₂_mem_right hrhs (List.mem_toFinset.mp hc)
    exact ⟨d, hd, (hν d (List.mem_append_right _ hd) c hp).mp hμc⟩

theorem Sampled.represented_lt (h : Sampled V iface boolValue s) (hp : Represented s d p) :
    p < s.nodes.length := by
  obtain ⟨hlt, -⟩ := List.getElem?_eq_some_iff.mp (h.represented_iff.mp hp)
  rwa [length_keys] at hlt

theorem Sampled.labelling_grows (h : Sampled V iface boolValue s)
    (h' : Sampled V iface boolValue s')
    (hg : Grows s s') {ν : TeacherDatapoint → Prop} (hp : p < s.nodes.length) :
    labelling ν s' p ↔ labelling ν s p := by
  obtain ⟨d, hd, hnode⟩ := h.node p hp
  have hrep := h.represented_iff.mpr hnode.key
  rw [h.labelling_iff hd.sorted hrep, h'.labelling_iff hd.sorted (hg.find hrep)]

/-- The Horn constraints that a counterexample adds. -/
theorem added_horn {lhs rhs : List TeacherDatapoint} (h : Sampled V iface boolValue s')
    {pair : Finset ℕ × Finset ℕ} (hpair : IndexPair (objectsOf (lhs ++ rhs)) s'
      ⟨List.range' 0 lhs.length, List.range' lhs.length rhs.length⟩ pair) :
    ∃ ps cs, List.Forall₂ (Represented s') lhs ps ∧ List.Forall₂ (Represented s') rhs cs ∧
      pair = (ps.toFinset, cs.toFinset) := by
  obtain ⟨ps, cs, hps, hcs, rfl⟩ := hpair
  have hlhs : List.Forall₂ (Represented s') lhs ps :=
    represents_objects [] rhs hps
  have hrhs : List.Forall₂ (Represented s') rhs cs :=
    represents_objects lhs [] (by rw [List.append_nil]; exact hcs)
  have hid : ∀ {ds : List TeacherDatapoint} {qs : List ℕ}, List.Forall₂ (Represented s') ds qs →
      (qs.map fun p => (s'.point p).identifier) = qs := by
    intro ds qs hqs
    conv_rhs => rw [← List.map_id qs]
    refine List.map_congr_left fun q hq => ?_
    obtain ⟨d, -, hd⟩ := forall₂_mem_right hqs hq
    obtain ⟨_, -, hnode⟩ := h.node q (h.represented_lt hd)
    exact hnode.identifier
  exact ⟨ps, cs, hlhs, hrhs, by rw [hid hlhs, hid hrhs]⟩

/-- A Horn counterexample has at most one data point on its right-hand side. -/
theorem addCounterexample_rhs {ce : HornCounterexample}
    (hrun : s.addCounterexample iface boolValue ce = .ok s') : ce.rhs.length ≤ 1 := by
  unfold addCounterexample at hrun
  split at hrun
  · exact le_rfl
  · exact Nat.zero_le 1
  · split_ifs at hrun with hsize
    exact hsize.2

theorem IndexPair.card {ce : HornCounterexample} {pair : Finset ℕ × Finset ℕ}
    (h : IndexPair args s ce pair) : pair.2.card ≤ ce.rhs.length := by
  obtain ⟨ps, cs, -, hcs, rfl⟩ := h
  refine (List.toFinset_card_le _).trans ?_
  rw [List.length_map, ← hcs.length_eq]

/-- What one counterexample adds to the sample. -/
structure Records (V : Value → Prop) (iface : LearnerInterface) (boolValue : Bool → ℤ)
    (s s' : Store)
    (lhs rhs : List TeacherDatapoint) : Prop where
  sampled : Sampled V iface boolValue s'
  grows : Grows s s'
  horn : s.hornIndexes <+: s'.hornIndexes
  entry : Entry s' lhs rhs
  models : ∀ ν, HoldsFor ν lhs rhs → s.Models (labelling ν s) → s'.Models (labelling ν s')

/-- A counterexample labels its only data point, or it is a Horn clause and labels none. -/
theorem counterexample_cases (lhs rhs : List TeacherDatapoint) :
    (lhs = [] ∧ ∃ d, rhs = [d]) ∨ (rhs = [] ∧ ∃ d, lhs = [d]) ∨
      isHorn ⟨List.range' 0 lhs.length, List.range' lhs.length rhs.length⟩ = true ∧
        ∀ o b, ¬ LabelOf ⟨List.range' 0 lhs.length, List.range' lhs.length rhs.length⟩ o b := by
  match lhs, rhs with
  | [], [d] => exact .inl ⟨rfl, d, rfl⟩
  | [d], [] => exact .inr (.inl ⟨rfl, d, rfl⟩)
  | [], [] => exact .inr (.inr ⟨rfl, fun _ _ hl => hl⟩)
  | [], _ :: _ :: _ => exact .inr (.inr ⟨rfl, fun _ _ hl => hl⟩)
  | [_], _ :: _ => exact .inr (.inr ⟨rfl, fun _ _ hl => hl⟩)
  | _ :: _ :: _, _ => exact .inr (.inr ⟨rfl, fun _ _ hl => hl⟩)

section record

variable {lhs rhs : List TeacherDatapoint}

theorem Sampled.record (h : Sampled V iface boolValue s)
    (hrec : ∀ d ∈ lhs ++ rhs, Recordable V d)
    (hrun : addCounterexample iface boolValue { s with objects := objectsOf (lhs ++ rhs) }
      ⟨List.range' 0 lhs.length, List.range' lhs.length rhs.length⟩ = .ok s') :
    Sampled V iface boolValue s' ∧ Grows s s' := by
  have hobj := objectsOf_recordable hrec
  have hargs : ∀ o, (objectsOf (lhs ++ rhs) o).Basic := fun o => Sorted.basic (hobj o).sorted
  have hinv := h.inv (objectsOf (lhs ++ rhs))
  have hadded := addCounterexample_spec hinv hargs hrun
  obtain ⟨hext, -⟩ := addCounterexample_extends hinv hargs hrun
  have hgrows : Grows s s' := ⟨hadded.grows.keys, hadded.grows.label⟩
  obtain ⟨L, hL, hpairs⟩ := hadded.hornIndexes
  have hL' : s'.hornIndexes = s.hornIndexes ++ L := hL
  refine ⟨⟨hadded.inv.nodup, hadded.inv.ptrs, fun p hp => ?_, hadded.inv.horn, fun pair hpair =>
    ?_⟩, hgrows⟩
  · by_cases hlt : p < s.nodes.length
    · obtain ⟨d, hd, hnode⟩ := h.node p hlt
      exact ⟨d, hd, hnode.extends hgrows.keys (hext.kept p hlt)⟩
    · obtain ⟨o, ho⟩ := hext.node p (Nat.not_lt.mp hlt) hp
      exact ⟨_, hobj o, ho⟩
  · rcases List.mem_append.mp (hL' ▸ hpair) with hold | hnew
    · exact h.conclusion pair hold
    · obtain ⟨ce, hce, hindex⟩ := forall₂_mem_right hpairs hnew
      rw [List.mem_singleton.mp (List.mem_filter.mp hce).1] at hindex
      exact hindex.card.trans (addCounterexample_rhs hrun)

/-- The Horn clauses that are added are the counterexample, and a Horn clause is added. -/
theorem Sampled.record_horn (h : Sampled V iface boolValue s)
    (hrec : ∀ d ∈ lhs ++ rhs, Recordable V d)
    (hrun : addCounterexample iface boolValue { s with objects := objectsOf (lhs ++ rhs) }
      ⟨List.range' 0 lhs.length, List.range' lhs.length rhs.length⟩ = .ok s') :
    ∃ L, s'.hornIndexes = s.hornIndexes ++ L ∧
      (∀ pair ∈ L, ∃ ps cs, List.Forall₂ (Represented s') lhs ps ∧
        List.Forall₂ (Represented s') rhs cs ∧ pair = (ps.toFinset, cs.toFinset)) ∧
      (isHorn ⟨List.range' 0 lhs.length, List.range' lhs.length rhs.length⟩ = true →
        ∃ pair, pair ∈ L) := by
  have hargs : ∀ o, (objectsOf (lhs ++ rhs) o).Basic := fun o =>
    Sorted.basic (objectsOf_recordable hrec o).sorted
  have hadded := addCounterexample_spec (h.inv (objectsOf (lhs ++ rhs))) hargs hrun
  obtain ⟨L, hL, hpairs⟩ := hadded.hornIndexes
  refine ⟨L, hL, fun pair hpair => ?_, fun hhorn => ?_⟩
  · obtain ⟨ce, hce, hindex⟩ := forall₂_mem_right hpairs hpair
    rw [List.mem_singleton.mp (List.mem_filter.mp hce).1] at hindex
    exact added_horn (h.record hrec hrun).1 hindex
  · rw [List.filter_singleton, hhorn] at hpairs
    obtain ⟨pair, _, -, -, rfl⟩ := List.forall₂_cons_left_iff.mp hpairs
    exact ⟨pair, List.mem_cons_self⟩

theorem Sampled.record_entry (h : Sampled V iface boolValue s)
    (hrec : ∀ d ∈ lhs ++ rhs, Recordable V d)
    (hrun : addCounterexample iface boolValue { s with objects := objectsOf (lhs ++ rhs) }
      ⟨List.range' 0 lhs.length, List.range' lhs.length rhs.length⟩ = .ok s') :
    Entry s' lhs rhs := by
  have hargs : ∀ o, (objectsOf (lhs ++ rhs) o).Basic := fun o =>
    Sorted.basic (objectsOf_recordable hrec o).sorted
  have hadded := addCounterexample_spec (h.inv (objectsOf (lhs ++ rhs))) hargs hrun
  obtain ⟨L, hL, hpairs, hne⟩ := h.record_horn hrec hrun
  rcases counterexample_cases lhs rhs with ⟨rfl, d, rfl⟩ | ⟨rfl, d, rfl⟩ | ⟨hhorn, -⟩
  · obtain ⟨p, hp, hb⟩ := hadded.labelled
    exact .positive d p rfl rfl hp hb
  · obtain ⟨p, hp, hb⟩ := hadded.labelled
    exact .negative d p rfl rfl hp hb
  · obtain ⟨pair, hpair⟩ := hne hhorn
    obtain ⟨ps, cs, hps, hcs, rfl⟩ := hpairs pair hpair
    refine .horn ps cs hps hcs ?_
    rw [hL]
    exact List.mem_append_right _ hpair

/-- The labels of the new sample hold of every solution of the old one and the
    counterexample. -/
theorem Sampled.record_labels (h : Sampled V iface boolValue s)
    (hrec : ∀ d ∈ lhs ++ rhs, Recordable V d)
    (hrun : addCounterexample iface boolValue { s with objects := objectsOf (lhs ++ rhs) }
      ⟨List.range' 0 lhs.length, List.range' lhs.length rhs.length⟩ = .ok s')
    {ν : TeacherDatapoint → Prop} (hν : HoldsFor ν lhs rhs) (hmodels : s.Models (labelling ν s))
    {p : ℕ} {b : Bool} (hb : (s'.point p).label = some b) : labelling ν s' p ↔ b = true := by
  have hobj := objectsOf_recordable hrec
  have hargs : ∀ o, (objectsOf (lhs ++ rhs) o).Basic := fun o => Sorted.basic (hobj o).sorted
  obtain ⟨-, hlabel⟩ := addCounterexample_extends (h.inv (objectsOf (lhs ++ rhs))) hargs hrun
  obtain ⟨hsampled, hgrows⟩ := h.record hrec hrun
  rcases hlabel p b hb with hold | ⟨o, ho, hlab⟩
  · have hold' : (s.point p).label = some b := hold
    have hlt : p < s.nodes.length := by
      by_contra hge
      rw [label_of_ge (Nat.not_lt.mp hge)] at hold'
      cases hold'
    rw [h.labelling_grows hsampled hgrows hlt]
    exact hmodels.labels p b hold'
  · have hrep : Represented s' (objectsOf (lhs ++ rhs) o) p := ho
    rw [hsampled.labelling_iff (hobj o).sorted hrep]
    rcases counterexample_cases lhs rhs with ⟨rfl, d, rfl⟩ | ⟨rfl, d, rfl⟩ | ⟨-, hno⟩
    · obtain ⟨rfl, rfl⟩ := hlab
      obtain ⟨d', hd', hνd⟩ := hν (by simp)
      rw [List.mem_singleton.mp hd'] at hνd
      exact ⟨fun _ => rfl, fun _ => hνd⟩
    · obtain ⟨rfl, rfl⟩ := hlab
      refine ⟨fun hνd => ?_, fun hfalse => by cases hfalse⟩
      obtain ⟨_, hd', -⟩ := hν fun d' hd' => by
        rw [List.mem_singleton.mp hd']
        exact hνd
      cases hd'
    · exact absurd hlab (hno o b)

theorem record_spec (h : Sampled V iface boolValue s)
    (hrec : ∀ d ∈ lhs ++ rhs, Recordable V d)
    (hrun : addCounterexample iface boolValue { s with objects := objectsOf (lhs ++ rhs) }
      ⟨List.range' 0 lhs.length, List.range' lhs.length rhs.length⟩ = .ok s') :
    Records V iface boolValue s s' lhs rhs := by
  obtain ⟨hsampled, hgrows⟩ := h.record hrec hrun
  obtain ⟨L, hL, hpairs, -⟩ := h.record_horn hrec hrun
  refine ⟨hsampled, hgrows, hL ▸ List.prefix_append _ _, h.record_entry hrec hrun,
    fun ν hν hmodels => ⟨fun p b hb => h.record_labels hrec hrun hν hmodels hb, ?_⟩⟩
  intro pair hpair hall
  rw [hL] at hpair
  rcases List.mem_append.mp hpair with hpair | hpair
  · have hlt := h.horn pair hpair
    obtain ⟨i, hi, hμ⟩ := hmodels.horn pair hpair fun i hi =>
      (h.labelling_grows hsampled hgrows (hlt i (Finset.mem_union_left _ hi))).mp (hall i hi)
    exact ⟨i, hi, (h.labelling_grows hsampled hgrows (hlt i (Finset.mem_union_right _ hi))).mpr
      hμ⟩
  · obtain ⟨ps, cs, hps, hcs, rfl⟩ := hpairs pair hpair
    obtain ⟨d, hd, hνd⟩ := hν fun d hd => by
      obtain ⟨p, hp, hrep⟩ := forall₂_mem_right (List.Forall₂.flip hps) hd
      have hμ := hall p (List.mem_toFinset.mpr hp)
      rwa [hsampled.labelling_iff (hrec d (List.mem_append_left _ hd)).sorted hrep] at hμ
    obtain ⟨p, hp, hrep⟩ := forall₂_mem_right (List.Forall₂.flip hcs) hd
    refine ⟨p, List.mem_toFinset.mpr hp, ?_⟩
    rw [hsampled.labelling_iff (hrec d (List.mem_append_right _ hd)).sorted hrep]
    exact hνd

end record

/-! ## All counterexamples -/

theorem Converts.holds_iff {ce : Smt.HornCounterexample α} {lhs rhs : List TeacherDatapoint}
    (h : Converts iface ce lhs rhs) {ν : Smt.TeacherDatapoint α → Prop} :
    HoldsFor (fun d => ν d.toSmt) lhs rhs ↔ ce.Holds ν := by
  unfold HoldsFor Smt.HornCounterexample.Holds
  rw [← h.left, ← h.right]
  simp only [List.mem_map, forall_exists_index, and_imp, forall_apply_eq_imp_iff₂,
    exists_exists_and_eq_and]

/-- The data points of the counterexamples are recordable. -/
def AllRecordable (V : Value → Prop) (ces : List (Smt.HornCounterexample α)) : Prop :=
  ∀ ce ∈ ces, ∀ d : TeacherDatapoint, d.toSmt ∈ ce.lhs ++ ce.rhs → Recordable V d

theorem Converts.recordable {ce : Smt.HornCounterexample α} {lhs rhs : List TeacherDatapoint}
    (h : Converts iface ce lhs rhs)
    (hrec : ∀ d : TeacherDatapoint, d.toSmt ∈ ce.lhs ++ ce.rhs → Recordable V d) :
    ∀ d ∈ lhs ++ rhs, Recordable V d := by
  intro d hd
  refine hrec d ?_
  rw [← h.left, ← h.right, ← List.map_append]
  exact List.mem_map_of_mem hd

/-- What the counterexamples of a run leave in the sample. -/
structure RecordedAll (V : Value → Prop) (iface : LearnerInterface) (boolValue : Bool → ℤ)
    (ces : List (Smt.HornCounterexample α)) (s : Store) : Prop where
  sampled : Sampled V iface boolValue s
  entry : ∀ ce ∈ ces, ∃ lhs rhs, Converts iface ce lhs rhs ∧ (∀ d ∈ lhs ++ rhs, Recordable V d) ∧
    Entry s lhs rhs
  models : ∀ ν : Smt.TeacherDatapoint α → Prop, (∀ ce ∈ ces, ce.Holds ν) →
    s.Models (labelling (fun d => ν d.toSmt) s)

theorem recordAll_spec {ces : List (Smt.HornCounterexample α)} (hrec : AllRecordable V ces)
    (hrun : recordAll iface boolValue ces = .ok s) : RecordedAll V iface boolValue ces s := by
  refine foldlM_ok_spec (f := record iface boolValue)
    (I := fun done t => RecordedAll V iface boolValue done t) ?_ ?_ hrun
  · intro done ce rest t t' hl ht hstep
    obtain ⟨lhs, rhs, hconv, hadd⟩ := record_ok hstep
    have hpoints := hconv.recordable (hrec ce (hl ▸ by simp))
    have hr := record_spec ht.sampled hpoints hadd
    refine ⟨hr.sampled, fun ce' hce' => ?_, fun ν hν => ?_⟩
    · rcases List.mem_append.mp hce' with hold | hnew
      · obtain ⟨lhs', rhs', hconv', hrec', hentry⟩ := ht.entry ce' hold
        exact ⟨lhs', rhs', hconv', hrec', hentry.grows hr.grows hr.horn⟩
      · obtain rfl := List.mem_singleton.mp hnew
        exact ⟨lhs, rhs, hconv, hpoints, hr.entry⟩
    · refine hr.models _ (hconv.holds_iff.mpr (hν ce (by simp))) (ht.models ν fun ce' hce' => ?_)
      exact hν ce' (List.mem_append_left _ hce')
  · refine ⟨.initial _, by simp, fun ν _ => ⟨fun p b hb => ?_, fun pair hpair => ?_⟩⟩
    · rw [label_of_ge (Nat.zero_le p)] at hb
      cases hb
    · cases hpair

/-- A labelling of the nodes that satisfies the sample satisfies all counterexamples. -/
theorem RecordedAll.holds {ces : List (Smt.HornCounterexample α)}
    (h : RecordedAll V iface boolValue ces s) {μ : ℕ → Prop} (hμ : s.Models μ)
    {ν : Smt.TeacherDatapoint α → Prop}
    (hν : ∀ d, Recordable V d → ∀ p, Represented s d p → (μ p ↔ ν d.toSmt))
    {ce : Smt.HornCounterexample α} (hce : ce ∈ ces) : ce.Holds ν := by
  obtain ⟨lhs, rhs, hconv, hrec, hentry⟩ := h.entry ce hce
  exact hconv.holds_iff.mp (hentry.holds hμ fun d hd => hν d (hrec d hd))

/-- Data points of the verifier are the same if those of the teacher are. -/
theorem toSmt_inj {d d' : TeacherDatapoint} (h : (d.toSmt : Smt.TeacherDatapoint α) = d'.toSmt) :
    d = d' := by
  have hval : Function.Injective (Value.toVal : Value → Val α) := by
    intro v w hvw
    cases v <;> cases w <;> simp_all [Value.toVal]
  injection h with hdecl hvalues
  have hpredicate := FuncDecl.toDecl_inj hdecl
  have hvals := List.map_injective_iff.mpr hval hvalues
  cases d
  cases d'
  simp_all

/-- The values have the sorts of the arguments in all data points. -/
def AllSorted (ces : List (Smt.HornCounterexample α)) : Prop :=
  ∀ ce ∈ ces, ∀ d : TeacherDatapoint, d.toSmt ∈ ce.lhs ++ ce.rhs → d.Sorted

theorem AllSorted.recordable {ces : List (Smt.HornCounterexample α)} (h : AllSorted ces) :
    AllRecordable (fun _ => True) ces :=
  fun ce hce d hd => ⟨h ce hce d hd, fun _ _ => trivial⟩

/-- The labels and Horn constraints of the sample say about the data points what the
    counterexamples say, so that the sample is satisfiable iff they are. -/
theorem recordAll_models_iff (iface : LearnerInterface) (boolValue : Bool → ℤ)
    (ces : List (Smt.HornCounterexample α)) (hsorted : AllSorted ces) (s : Store)
    (hrun : recordAll iface boolValue ces = .ok s) :
    (∀ ν : Smt.TeacherDatapoint α → Prop,
      s.Models (labelling (fun d => ν d.toSmt) s) ↔ ∀ ce ∈ ces, ce.Holds ν) ∧
    ((∃ μ, s.Models μ) ↔ ∃ ν : Smt.TeacherDatapoint α → Prop, ∀ ce ∈ ces, ce.Holds ν) := by
  have h := recordAll_spec hsorted.recordable hrun
  refine ⟨fun ν => ⟨fun hμ ce hce => ?_, h.models ν⟩, ?_, fun ⟨ν, hν⟩ => ⟨_, h.models ν hν⟩⟩
  · exact h.holds hμ (fun d hd p hp => h.sampled.labelling_iff hd.sorted hp) hce
  · rintro ⟨μ, hμ⟩
    -- a data point holds if its node does
    refine ⟨fun d => ∃ d', d'.toSmt = d ∧ ∃ p, Represented s d' p ∧ μ p, fun ce hce => ?_⟩
    refine h.holds hμ (fun d hd p hp => ⟨fun hp' => ⟨d, rfl, p, hp, hp'⟩, ?_⟩) hce
    rintro ⟨d', hd', p', hp', hμ'⟩
    rw [toSmt_inj hd', Represented, hp] at hp'
    rwa [Option.some.inj hp']

/-! ## A fact and a clause for `reach` -/

/-- The counterexamples say that `reach` holds for 1 and 2, and for 2 and 1 if it does for
    1 and 2. -/
def reachClauses : List (Smt.HornCounterexample Unit) :=
  [⟨[], [(twins 0).toSmt]⟩, ⟨[(twins 1).toSmt], [(twins 2).toSmt]⟩]

/-- The sample after the counterexamples. -/
def reachSample : Store where
  objects := Function.update (Function.update (objectsOf [twins 1, twins 2]) 1 (twins 2).extended) 0
    (twins 1).extended
  nodes := [((twins 0).extended, { intData := [1, 2, 3, -1], categoricalData := [0]
                                   isClassified := true, classification := true }),
    ((twins 2).extended, { intData := [2, 1, 3, 1], categoricalData := [0], identifier := 1 })]
  datapointPtrs := [0, 1]
  hornIndexes := [({0}, {1})]

theorem recordAll_reachClauses :
    recordAll ⟨[reach]⟩ boolToInt reachClauses = .ok reachSample := by
  have h12 := learnerDatapoint_reach 1 2 (by decide) (by decide)
  have h21 := learnerDatapoint_reach 2 1 (by decide) (by decide)
  have hr : List.idxOf? reach [reach] = some 0 := by simp [List.idxOf?]
  have hpoint : ∀ k, [(twins k).toSmt (α := Unit)].mapM (ofDatapoint ⟨[reach]⟩) =
      .ok [twins k] := by
    refine fun k => mapM_ofDatapoint.mpr ⟨?_, rfl⟩
    match k with
    | 0 => simp [twins]
    | 1 => simp [twins]
    | _ + 2 => simp [twins]
  have hnone : ([] : List (Smt.TeacherDatapoint Unit)).mapM (ofDatapoint ⟨[reach]⟩) = .ok [] := rfl
  simp only [recordAll, reachClauses, List.foldlM_cons, record, hpoint, hnone]
  simp [addCounterexample, addHorn, getPoints, addHornConstraints, addLabel,
    getUniqueLearnerDatapoint, insertIfAbsent, insert, initial, find, emplace, objectsOf, twins, hr,
    h12, h21, bind, Except.bind, indexOfDatapointPtrs, addDatapoints, point, setClassification,
    TeacherDatapoint.extended, TeacherDatapoint.equal, equalValues, withDerived, pairs,
    derivedValues, pure, Except.pure, reachSample, List.findIdx?_cons]

/-- Data points satisfy the sample of the fact and the clause iff they satisfy these two. -/
theorem recordAll_models_iff_reachClauses :
    (∀ ν : Smt.TeacherDatapoint Unit → Prop,
      reachSample.Models (labelling (fun d => ν d.toSmt) reachSample) ↔
        ∀ ce ∈ reachClauses, ce.Holds ν) ∧
    ((∃ μ, reachSample.Models μ) ↔
      ∃ ν : Smt.TeacherDatapoint Unit → Prop, ∀ ce ∈ reachClauses, ce.Holds ν) := by
  refine recordAll_models_iff ⟨[reach]⟩ boolToInt reachClauses ?_ _ recordAll_reachClauses
  have hsorted : ∀ k, ∀ d : TeacherDatapoint,
    d.toSmt = ((twins k).toSmt : Smt.TeacherDatapoint Unit) →
      d.Sorted := by
    intro k d hd
    rw [toSmt_inj hd]
    match k with
    | 0 => rfl
    | 1 => rfl
    | _ + 2 => rfl
  intro ce hce d hd
  simp only [reachClauses, List.mem_cons, List.not_mem_nil, or_false] at hce
  rcases hce with rfl | rfl
  · exact hsorted 0 d (List.mem_singleton.mp hd)
  · rcases List.mem_cons.mp hd with hd | hd
    · exact hsorted 1 d hd
    · exact hsorted 2 d (List.mem_singleton.mp hd)

end Store

end HiceDt.Chc
