import Mathlib.Data.List.Basic
import HiceDt.Boogie.Components
import HiceDt.Boogie.Teacher

/-!
# Priorities of implementations

Model of the dictionaries that `GenVC` fills and of the first part of `ComputeSummaries`
(`Boogie/Source/Houdini/MLHoudini.cs`, lines 425–426, 2498–2502 and 1133–1165). The
implementations are put in the order of the strongly connected components of a graph: an
edge leads from an implementation that asserts a function to the ones that assume it.

Results:

* `genVCs_spec`: the contents of the dictionaries.
* `graph_spec`: the edges of the graph.
* `computePriorities_order`: the priorities are different and respect the components.
-/

namespace HiceDt.Boogie

open HiceDt Loop Dictionary StronglyConnectedComponents

/-! ## The dictionaries -/

/-- What `ReplaceFunctionCalls` finds in an implementation. -/
structure FunctionsFound where
  implName : String
  functionsAssumed : List String
  functionsAsserted : List String
deriving DecidableEq, Repr

/-- The dictionaries between implementations and existential functions. -/
structure Dependencies where
  impl2functionsAsserted : List (String × List String)
  impl2functionsAssumed : List (String × List String)
  function2implAssumed : List (String × List String)
  function2implAsserted : List (String × List String)
deriving DecidableEq, Repr

/-- `d.Add (k, v)`. -/
def addItem {υ : Type} (d : List (String × υ)) (k : String) (v : υ) :
    Except Error (List (String × υ)) :=
  if k ∈ keys d then .error (.runtimeError "ArgumentException") else .ok (set d k v)

/-- `d[k].Add (x)`. -/
def addTo (d : List (String × List String)) (k x : String) :
    Except Error (List (String × List String)) := do
  let l ← item d k
  return set d k (l.insert x)

/-- `GenVC` (lines 2498–2502). -/
def genVC (deps : Dependencies) (fv : FunctionsFound) : Except Error Dependencies := do
  let impl2functionsAsserted ← addItem deps.impl2functionsAsserted fv.implName fv.functionsAsserted
  let impl2functionsAssumed ← addItem deps.impl2functionsAssumed fv.implName fv.functionsAssumed
  let function2implAssumed ← fv.functionsAssumed.foldlM (fun d f => addTo d f fv.implName)
    deps.function2implAssumed
  let function2implAsserted ← fv.functionsAsserted.foldlM (fun d f => addTo d f fv.implName)
    deps.function2implAsserted
  return ⟨impl2functionsAsserted, impl2functionsAssumed, function2implAssumed,
    function2implAsserted⟩

/-- The dictionaries after `name2Impl.Values.Iter (GenVC)`. -/
def genVCs (existentialFunctions : List String) (impls : List FunctionsFound) :
    Except Error Dependencies :=
  impls.foldlM genVC
    ⟨[], [], existentialFunctions.map fun f => (f, []), existentialFunctions.map fun f => (f, [])⟩

/-! ## `ComputeSummaries` -/

/-- `Succ` and `Pred`. -/
structure Adjacencies where
  succ : List (String × List String)
  pred : List (String × List String)
deriving DecidableEq, Repr

/-- `Succ[impl].Add (succ); Pred[succ].Add (impl)`. -/
def addEdge (impl : String) (a : Adjacencies) (succ : String) : Except Error Adjacencies := do
  let s ← addTo a.succ impl succ
  let p ← addTo a.pred succ impl
  return ⟨s, p⟩

/-- The edges from an implementation. -/
def addEdges (deps : Dependencies) (a : Adjacencies) (impl : String) : Except Error Adjacencies :=
    do
  let functionsAsserted ← item deps.impl2functionsAsserted impl
  functionsAsserted.foldlM (fun a f => do
    let impls ← item deps.function2implAssumed f
    impls.foldlM (addEdge impl) a) { a with succ := set a.succ impl [] }

/-- Lines 1136–1149. -/
def adjacencies (deps : Dependencies) (names : List String) : Except Error Adjacencies :=
  names.foldlM (addEdges deps) ⟨names.map fun s => (s, []), names.map fun s => (s, [])⟩

/-- Lines 1151–1153; `enumerate` is the order in which a set is visited. -/
def Adjacencies.graph (a : Adjacencies) (enumerate : List String → List String)
    (names : List String)
    (hnames : names.Nodup) : StronglyConnectedComponents String where
  graph := names
  preds := fun n => enumerate ((a.pred.lookup n).getD [])
  succs := fun n => enumerate ((a.succ.lookup n).getD [])
  nodup := hnames

/-- `ComputeSummaries` (lines 1135–1165): `impl2Priority`; `members` is the order in which a
    component is visited. -/
def computePriorities (deps : Dependencies) (enumerate members : List String → List String)
    (names : List String) (hnames : names.Nodup) : Except Error (List (String × ℕ)) := do
  let a ← adjacencies deps names
  match (a.graph enumerate names hnames).compute with
  | none => .error .outOfFuel
  | some sccs => (sccs.map members).flatten.zipIdx.foldlM (fun d x => addItem d x.1 x.2) []

/-! ## Dictionaries of sets -/

/-- `x` is in the set `d[k]`. -/
def Has (d : List (String × List String)) (k x : String) : Prop := ∃ l, d.lookup k = some l ∧ x ∈ l

theorem mem_keys_iff {υ : Type} {d : List (String × υ)} {k : String} :
    k ∈ keys d ↔ ∃ v, d.lookup k = some v := by
  rw [← not_iff_not, not_mem_keys_iff, not_exists]
  cases d.lookup k with
  | none => simp
  | some v => simp

theorem addTo_spec {d : List (String × List String)} {k : String} (hk : k ∈ keys d) (x : String) :
    ∃ d', addTo d k x = .ok d' ∧ keys d' = keys d ∧
      ∀ k' y, Has d' k' y ↔ Has d k' y ∨ k' = k ∧ y = x := by
  obtain ⟨l, hl⟩ := mem_keys_iff.mp hk
  refine ⟨set d k (l.insert x), ?_, keys_set_of_mem hk _, fun k' y => ?_⟩
  · rw [addTo, item_ok.mpr hl]
    rfl
  · unfold Has
    rw [lookup_set]
    by_cases hkk : k' = k
    · rw [if_pos hkk, hkk, hl]
      simp only [Option.some.injEq, exists_eq_left', List.mem_insert_iff, true_and]
      exact or_comm
    · rw [if_neg hkk]
      simp [hkk]

/-- The implementation is added to the sets of several functions. -/
theorem addToEach_spec {d : List (String × List String)} {ks : List String}
    (hks : ∀ k ∈ ks, k ∈ keys d) (x : String) :
    ∃ d', ks.foldlM (fun d k => addTo d k x) d = .ok d' ∧ keys d' = keys d ∧
      ∀ k' y, Has d' k' y ↔ Has d k' y ∨ k' ∈ ks ∧ y = x := by
  refine foldlM_returns (I := fun done d' => keys d' = keys d ∧
    ∀ k' y, Has d' k' y ↔ Has d k' y ∨ k' ∈ done ∧ y = x) (fun done k rest d' hl _ hd' => ?_)
    ⟨rfl, by simp⟩
  obtain ⟨hkeys, hhas⟩ := hd'
  obtain ⟨d'', hrun, hkeys', hhas'⟩ := addTo_spec (d := d') (k := k)
    (hkeys ▸ hks k (by rw [hl]; simp)) x
  refine ⟨d'', hrun, hkeys'.trans hkeys, fun k' y => ?_⟩
  rw [hhas', hhas, List.mem_append, List.mem_singleton]
  tauto

/-! ## What the dictionaries contain -/

/-- After `GenVC` was called for the implementations `done`. -/
structure Dependencies.Inv (existentialFunctions : List String) (done : List FunctionsFound)
    (deps : Dependencies) : Prop where
  asserted : deps.impl2functionsAsserted = done.map fun i => (i.implName, i.functionsAsserted)
  assumed : deps.impl2functionsAssumed = done.map fun i => (i.implName, i.functionsAssumed)
  keys_assumed : keys deps.function2implAssumed = existentialFunctions
  keys_asserted : keys deps.function2implAsserted = existentialFunctions
  has_assumed : ∀ f x, Has deps.function2implAssumed f x ↔
    ∃ i ∈ done, i.implName = x ∧ f ∈ i.functionsAssumed
  has_asserted : ∀ f x, Has deps.function2implAsserted f x ↔
    ∃ i ∈ done, i.implName = x ∧ f ∈ i.functionsAsserted

theorem exists_mem_concat {P : FunctionsFound → Prop} {done : List FunctionsFound}
    {fv : FunctionsFound} :
    (∃ i ∈ done ++ [fv], P i) ↔ (∃ i ∈ done, P i) ∨ P fv := by
  simp only [List.mem_append, List.mem_singleton, or_and_right, exists_or, exists_eq_left]

theorem lookup_map_nil (l : List String) (f : String) {s : List String}
    (h : (l.map fun f => (f, ([] : List String))).lookup f = some s) : s = [] := by
  have hmem := mem_of_lookup h
  rw [List.mem_map] at hmem
  obtain ⟨f', -, heq⟩ := hmem
  exact (Prod.mk.inj heq).2.symm

theorem not_has_map_nil (l : List String) (f x : String) :
    ¬ Has (l.map fun f => (f, ([] : List String))) f x := by
  rintro ⟨s, hs, hx⟩
  rw [lookup_map_nil l f hs] at hx
  cases hx

/-- The dictionaries describe the implementations. -/
theorem genVCs_spec {existentialFunctions : List String} {impls : List FunctionsFound}
    (hnames : (impls.map FunctionsFound.implName).Nodup)
    (hassumed : ∀ i ∈ impls, ∀ f ∈ i.functionsAssumed, f ∈ existentialFunctions)
    (hasserted : ∀ i ∈ impls, ∀ f ∈ i.functionsAsserted, f ∈ existentialFunctions) :
    ∃ deps, genVCs existentialFunctions impls = .ok deps ∧ deps.Inv existentialFunctions impls := by
  have hkeys : keys (existentialFunctions.map fun f => (f, ([] : List String))) =
      existentialFunctions := by
    rw [keys, List.map_map]
    exact List.map_id _
  refine foldlM_returns (I := Dependencies.Inv existentialFunctions)
    (fun done fv rest deps hl _ hinv => ?_)
    ⟨rfl, rfl, hkeys, hkeys, fun f x => ?_, fun f x => ?_⟩
  · have hfv : fv ∈ impls := by
      rw [hl]
      simp
    have hnew : fv.implName ∉ done.map FunctionsFound.implName := by
      rw [hl, List.map_append, List.map_cons] at hnames
      intro hmem
      exact List.disjoint_of_nodup_append hnames hmem List.mem_cons_self
    have hnewAsserted : fv.implName ∉ keys deps.impl2functionsAsserted := by
      rw [hinv.asserted, keys, List.map_map]
      exact hnew
    have hnewAssumed : fv.implName ∉ keys deps.impl2functionsAssumed := by
      rw [hinv.assumed, keys, List.map_map]
      exact hnew
    have hksAssumed : ∀ f ∈ fv.functionsAssumed, f ∈ keys deps.function2implAssumed := by
      intro f hf
      rw [hinv.keys_assumed]
      exact hassumed fv hfv f hf
    have hksAsserted : ∀ f ∈ fv.functionsAsserted, f ∈ keys deps.function2implAsserted := by
      intro f hf
      rw [hinv.keys_asserted]
      exact hasserted fv hfv f hf
    obtain ⟨dAssumed, hrunAssumed, hkAssumed, hhasAssumed⟩ := addToEach_spec hksAssumed fv.implName
    obtain ⟨dAsserted, hrunAsserted, hkAsserted, hhasAsserted⟩ :=
      addToEach_spec hksAsserted fv.implName
    refine ⟨⟨set deps.impl2functionsAsserted fv.implName fv.functionsAsserted,
      set deps.impl2functionsAssumed fv.implName fv.functionsAssumed, dAssumed, dAsserted⟩, ?_, ?_⟩
    · rw [genVC, addItem, if_neg hnewAsserted, addItem, if_neg hnewAssumed]
      simp only [bind, Except.bind, hrunAssumed, hrunAsserted]
      rfl
    · refine ⟨?_, ?_, hkAssumed.trans hinv.keys_assumed, hkAsserted.trans hinv.keys_asserted,
        fun f x => ?_, fun f x => ?_⟩
      · rw [set_of_not_mem hnewAsserted, hinv.asserted, List.map_append]
        rfl
      · rw [set_of_not_mem hnewAssumed, hinv.assumed, List.map_append]
        rfl
      · rw [hhasAssumed, hinv.has_assumed, exists_mem_concat, and_comm (a := f ∈ _),
          eq_comm (a := x)]
      · rw [hhasAsserted, hinv.has_asserted, exists_mem_concat, and_comm (a := f ∈ _),
          eq_comm (a := x)]
  · exact iff_of_false (not_has_map_nil _ f x) (by simp)
  · exact iff_of_false (not_has_map_nil _ f x) (by simp)

/-! ## The graph -/

/-- `impl'` assumes a function that `impl` asserts. -/
def DependsOn (impls : List FunctionsFound) (impl impl' : String) : Prop :=
  ∃ i ∈ impls, ∃ j ∈ impls, i.implName = impl ∧ j.implName = impl' ∧
    ∃ f ∈ i.functionsAsserted, f ∈ j.functionsAssumed

/-- `Succ` and `Pred` for the names contain the edges of `R`. -/
structure Adjacencies.Represents (a : Adjacencies) (names : List String)
    (R : String → String → Prop) :
    Prop where
  keys_succ : keys a.succ = names
  keys_pred : keys a.pred = names
  has_succ : ∀ u v, Has a.succ u v ↔ R u v
  has_pred : ∀ u v, Has a.pred v u ↔ R u v

variable {names : List String} {a : Adjacencies} {R R' : String → String → Prop} {impl : String}

theorem Adjacencies.Represents.congr (h : a.Represents names R) (hR : ∀ u v, R u v ↔ R' u v) :
    a.Represents names R' :=
  ⟨h.keys_succ, h.keys_pred, fun u v => (h.has_succ u v).trans (hR u v),
    fun u v => (h.has_pred u v).trans (hR u v)⟩

theorem addEdge_spec (h : a.Represents names R) (himpl : impl ∈ names) {succ : String}
    (hsucc : succ ∈ names) :
    ∃ a', addEdge impl a succ = .ok a' ∧
      a'.Represents names fun u v => R u v ∨ u = impl ∧ v = succ := by
  obtain ⟨s, hs, hks, hhs⟩ := addTo_spec (d := a.succ) (k := impl) (h.keys_succ.symm ▸ himpl) succ
  obtain ⟨p, hp, hkp, hhp⟩ := addTo_spec (d := a.pred) (k := succ) (h.keys_pred.symm ▸ hsucc) impl
  refine ⟨⟨s, p⟩, ?_, hks.trans h.keys_succ, hkp.trans h.keys_pred, fun u v => ?_, fun u v => ?_⟩
  · rw [addEdge, hs]
    simp only [bind, Except.bind, hp]
    rfl
  · rw [hhs, h.has_succ]
  · rw [hhp, h.has_pred, and_comm]

theorem addEdge_foldlM (h : a.Represents names R) (himpl : impl ∈ names) {l : List String}
    (hl : ∀ succ ∈ l, succ ∈ names) :
    ∃ a', l.foldlM (addEdge impl) a = .ok a' ∧
      a'.Represents names fun u v => R u v ∨ u = impl ∧ v ∈ l := by
  refine foldlM_returns (I := fun done (a' : Adjacencies) => a'.Represents names fun u v =>
      R u v ∨ u = impl ∧ v ∈ done)
    (fun done succ rest a' heq _ ha' => ?_) (h.congr fun u v => by simp)
  obtain ⟨a'', hrun, ha''⟩ := addEdge_spec ha' himpl (hl succ (by rw [heq]; simp))
  refine ⟨a'', hrun, ha''.congr fun u v => ?_⟩
  rw [List.mem_append, List.mem_singleton]
  tauto

variable {existentialFunctions : List String} {impls : List FunctionsFound} {deps : Dependencies}

/-- A new set for an implementation without edges changes nothing. -/
theorem Adjacencies.Represents.reset (h : a.Represents names R) (himpl : impl ∈ names)
    (hno : ∀ v, ¬ R impl v) : Adjacencies.Represents { a with succ := set a.succ impl [] } names
      R := by
  refine ⟨(keys_set_of_mem (h.keys_succ.symm ▸ himpl) _).trans h.keys_succ, h.keys_pred,
    fun u v => ?_, h.has_pred⟩
  rw [← h.has_succ u v]
  unfold Has
  rw [lookup_set]
  by_cases hu : u = impl
  · rw [if_pos hu]
    refine iff_of_false (by simp) fun hhas => hno v ?_
    rw [← hu]
    exact (h.has_succ u v).mp hhas
  · rw [if_neg hu]

theorem addEdges_spec (hdeps : deps.Inv existentialFunctions impls)
    (hnames : (impls.map FunctionsFound.implName).Nodup)
    (hasserted : ∀ i ∈ impls, ∀ f ∈ i.functionsAsserted, f ∈ existentialFunctions)
    {i : FunctionsFound} (hi : i ∈ impls)
    (h : a.Represents (impls.map FunctionsFound.implName) R) (hno : ∀ v, ¬ R i.implName v) :
    ∃ a', addEdges deps a i.implName = .ok a' ∧
      a'.Represents (impls.map FunctionsFound.implName) fun u v =>
        R u v ∨ u = i.implName ∧ DependsOn impls u v := by
  have himpl : i.implName ∈ impls.map FunctionsFound.implName := List.mem_map_of_mem hi
  have hitem : item deps.impl2functionsAsserted i.implName = .ok i.functionsAsserted := by
    rw [item_ok, hdeps.asserted]
    refine lookup_of_mem ?_ (List.mem_map_of_mem (f := fun i => (i.implName, i.functionsAsserted))
      hi)
    rw [keys, List.map_map]
    exact hnames
  obtain ⟨a', hrun, ha'⟩ := foldlM_returns (l := i.functionsAsserted)
    (f := fun a f => do
      let impls ← item deps.function2implAssumed f
      impls.foldlM (addEdge i.implName) a)
    (I := fun done a' => a'.Represents (impls.map FunctionsFound.implName) fun u v =>
      R u v ∨ u = i.implName ∧ ∃ f ∈ done, Has deps.function2implAssumed f v)
    (fun done f rest a' heq _ ha' => by
      have hf : f ∈ existentialFunctions := hasserted i hi f (by rw [heq]; simp)
      obtain ⟨l, hl⟩ := mem_keys_iff.mp (hdeps.keys_assumed.symm ▸ hf)
      obtain ⟨a'', hrun, ha''⟩ := addEdge_foldlM ha' himpl (l := l) fun succ hsucc => by
        obtain ⟨j, hj, rfl, -⟩ := (hdeps.has_assumed f succ).mp ⟨l, hl, hsucc⟩
        exact List.mem_map_of_mem hj
      refine ⟨a'', bind_ok.mpr ⟨l, item_ok.mpr hl, hrun⟩, ha''.congr fun u v => ?_⟩
      have hlast : v ∈ l ↔ Has deps.function2implAssumed f v := by
        unfold Has
        rw [hl]
        simp
      simp only [List.mem_append, List.mem_singleton, or_and_right, exists_or, exists_eq_left,
        hlast]
      rw [and_or_left, or_assoc])
    ((h.reset himpl hno).congr fun u v => by simp)
  refine ⟨a', bind_ok.mpr ⟨_, hitem, hrun⟩, ha'.congr fun u v => or_congr_right ?_⟩
  refine and_congr_right fun hu => ?_
  unfold DependsOn
  constructor
  · rintro ⟨f, hf, hhas⟩
    obtain ⟨j, hj, hjv, hfj⟩ := (hdeps.has_assumed f v).mp hhas
    exact ⟨i, hi, j, hj, hu.symm, hjv, f, hf, hfj⟩
  · rintro ⟨i', hi', j, hj, hi'u, hjv, f, hf, hfj⟩
    obtain rfl : i' = i := List.inj_on_of_nodup_map hnames hi' hi (hi'u.trans hu)
    exact ⟨f, hf, (hdeps.has_assumed f v).mpr ⟨j, hj, hjv, hfj⟩⟩

/-- `Succ` and `Pred` contain the dependencies. -/
theorem adjacencies_spec (hdeps : deps.Inv existentialFunctions impls)
    (hnames : (impls.map FunctionsFound.implName).Nodup)
    (hasserted : ∀ i ∈ impls, ∀ f ∈ i.functionsAsserted, f ∈ existentialFunctions) :
    ∃ a, adjacencies deps (impls.map FunctionsFound.implName) = .ok a ∧
      a.Represents (impls.map FunctionsFound.implName) (DependsOn impls) := by
  have hkeys : keys ((impls.map FunctionsFound.implName).map fun s => (s, ([] : List String))) =
      impls.map FunctionsFound.implName := by
    rw [keys, List.map_map]
    exact List.map_id _
  obtain ⟨a, hrun, ha⟩ := foldlM_returns (f := addEdges deps)
    (s := ⟨(impls.map FunctionsFound.implName).map fun s => (s, []),
      (impls.map FunctionsFound.implName).map fun s => (s, [])⟩)
    (l := impls.map FunctionsFound.implName)
    (I := fun done a => a.Represents (impls.map FunctionsFound.implName) fun u v =>
      u ∈ done ∧ DependsOn impls u v)
    (fun done name rest a hl _ ha => by
      have hname : name ∈ impls.map FunctionsFound.implName := by
        rw [hl]
        simp
      obtain ⟨i, hi, rfl⟩ := List.mem_map.mp hname
      have hnew : i.implName ∉ done := fun hmem =>
        List.disjoint_of_nodup_append (hl ▸ hnames) hmem List.mem_cons_self
      obtain ⟨a', hrun, ha'⟩ := addEdges_spec hdeps hnames hasserted hi ha fun v hv => hnew hv.1
      refine ⟨a', hrun, ha'.congr fun u v => ?_⟩
      rw [List.mem_append, List.mem_singleton]
      tauto)
    ⟨hkeys, hkeys, fun u v => iff_of_false (not_has_map_nil _ u v) (by simp),
      fun u v => iff_of_false (not_has_map_nil _ v u) (by simp)⟩
  refine ⟨a, hrun, ha.congr fun u v => and_iff_right_of_imp ?_⟩
  rintro ⟨i, hi, -, -, rfl, -⟩
  exact List.mem_map_of_mem hi

/-- There is a chain of dependencies. -/
def Leads (impls : List FunctionsFound) : String → String → Prop :=
  Relation.ReflTransGen (DependsOn impls)

section Graph

variable {enumerate : List String → List String}
    {hnames : (impls.map FunctionsFound.implName).Nodup}

theorem Adjacencies.Represents.mem_enumerate {d : List (String × List String)} {u v : String}
    (henum : ∀ l x, x ∈ enumerate l ↔ x ∈ l) (hu : u ∈ keys d) :
    v ∈ enumerate ((d.lookup u).getD []) ↔ Has d u v := by
  obtain ⟨l, hl⟩ := mem_keys_iff.mp hu
  rw [henum]
  unfold Has
  rw [hl]
  simp

/-- The paths of the graph are the chains of dependencies. -/
theorem Adjacencies.Represents.graph_spec
    (h : a.Represents (impls.map FunctionsFound.implName) (DependsOn impls))
    (henum : ∀ l x, x ∈ enumerate l ↔ x ∈ l) :
    (a.graph enumerate (impls.map FunctionsFound.implName) hnames).Inverse ∧
      ∀ u ∈ impls.map FunctionsFound.implName, ∀ v,
        (a.graph enumerate (impls.map FunctionsFound.implName) hnames).Reaches u v ↔
          Leads impls u v := by
  have hsucc : ∀ u ∈ impls.map FunctionsFound.implName, ∀ v,
      v ∈ enumerate ((a.succ.lookup u).getD []) ↔ DependsOn impls u v := by
    intro u hu v
    rw [mem_enumerate henum (h.keys_succ.symm ▸ hu), h.has_succ]
  have hmem : ∀ u v, DependsOn impls u v → v ∈ impls.map FunctionsFound.implName := by
    rintro u v ⟨i, -, j, hj, -, rfl, -⟩
    exact List.mem_map_of_mem hj
  refine ⟨fun u hu v hv => ?_, fun u hu v => ⟨fun huv => ?_, fun huv => ?_⟩⟩
  · show v ∈ enumerate ((a.succ.lookup u).getD []) ↔ u ∈ enumerate ((a.pred.lookup v).getD [])
    rw [hsucc u hu, mem_enumerate henum (h.keys_pred.symm ▸ hv), h.has_pred]
  · induction huv with
    | refl => exact .refl
    | @tail w x huw hedge ih => exact ih.tail ((hsucc w (mem_of_reaches huw hu) x).mp hedge.1)
  · induction huv with
    | refl => exact .refl
    | @tail w x _ hdep ih =>
      exact ih.tail ⟨(hsucc w (mem_of_reaches ih hu) x).mpr hdep, hmem w x hdep⟩

end Graph

/-! ## The priorities -/

/-- Different names get their positions as priorities. -/
theorem addItem_zipIdx {l : List String} (hnd : l.Nodup) :
    l.zipIdx.foldlM (fun d (x : String × ℕ) => addItem d x.1 x.2) [] = .ok l.zipIdx := by
  obtain ⟨d, hrun, rfl⟩ := foldlM_returns (f := fun d (x : String × ℕ) => addItem d x.1 x.2)
    (l := l.zipIdx) (s := []) (I := fun done d => d = done)
    (fun done x rest d hl _ hd => by
      have hkeys : (keys (done ++ x :: rest)).Nodup := by
        rw [← hl, keys, List.zipIdx_map_fst]
        exact hnd
      have hnew : x.1 ∉ keys d := by
        rw [hd]
        rw [keys, List.map_append] at hkeys
        exact fun hmem => List.disjoint_of_nodup_append hkeys hmem List.mem_cons_self
      refine ⟨set d x.1 x.2, if_neg hnew, ?_⟩
      rw [set_of_not_mem hnew, hd])
    rfl
  exact hrun

theorem getElem?_of_lookup_zipIdx {l : List String} {x : String} {p : ℕ}
    (h : l.zipIdx.lookup x = some p) : l[p]? = some x :=
  List.mem_zipIdx_iff_getElem?.mp (mem_of_lookup h)

/-- Every implementation has a priority, and the priorities are different. Where a chain of
    dependencies does not lead to a smaller priority, the implementations depend on each
    other; those that do so with others have consecutive priorities. -/
structure PriorityOrder (impls : List FunctionsFound) (impl2Priority : List (String × ℕ)) :
    Prop where
  names : (keys impl2Priority).Perm (impls.map FunctionsFound.implName)
  priorities : impl2Priority.map Prod.snd = List.range impls.length
  backwards : ∀ x y p q, impl2Priority.lookup x = some p → impl2Priority.lookup y = some q → p ≤ q →
    Leads impls x y → Leads impls y x
  consecutive : ∀ x y z p q r, impl2Priority.lookup x = some p → impl2Priority.lookup y = some q →
    impl2Priority.lookup z = some r → p ≤ r → r ≤ q → Leads impls x y →
    Leads impls x z ∧ Leads impls z x

/-- The order of the components of a graph. -/
theorem priorityOrder_of_components {g : StronglyConnectedComponents String}
    {sccs : List (List String)}
    (hperm : sccs.flatten.Perm (impls.map FunctionsFound.implName)) (hcomp : g.IsComponents sccs)
    (hreach : ∀ u ∈ impls.map FunctionsFound.implName, ∀ v, g.Reaches u v ↔ Leads impls u v) :
    PriorityOrder impls sccs.flatten.zipIdx := by
  have hrank : ∀ {u v : String} {i j : ℕ}, sccs.flatten.zipIdx.lookup u = some i →
      sccs.flatten.zipIdx.lookup v = some j → i ≤ j → rank sccs u ≤ rank sccs v := by
    intro u v i j hu hv hij
    obtain ⟨hi, rfl⟩ := List.getElem?_eq_some_iff.mp (getElem?_of_lookup_zipIdx hu)
    obtain ⟨hj, rfl⟩ := List.getElem?_eq_some_iff.mp (getElem?_of_lookup_zipIdx hv)
    rcases Nat.lt_or_eq_of_le hij with hij | rfl
    · exact List.pairwise_iff_getElem.mp hcomp.pairwise_rank i j hi hj hij
    · exact le_refl _
  have hmem : ∀ {u : String} {i : ℕ}, sccs.flatten.zipIdx.lookup u = some i → u ∈ sccs.flatten :=
    fun hu => List.mem_of_getElem? (getElem?_of_lookup_zipIdx hu)
  have hsame : ∀ {x y : String} {p q : ℕ}, sccs.flatten.zipIdx.lookup x = some p →
      sccs.flatten.zipIdx.lookup y = some q → p ≤ q → Leads impls x y →
      rank sccs x = rank sccs y := by
    intro x y p q hx hy hpq hxy
    refine le_antisymm (hrank hx hy hpq) ((hcomp.rank_spec (hmem hx) (hmem hy)).2 ?_)
    exact (hreach x (hperm.subset (hmem hx)) y).mpr hxy
  have hleads : ∀ {x y : String} {p q : ℕ}, sccs.flatten.zipIdx.lookup x = some p →
      sccs.flatten.zipIdx.lookup y = some q → rank sccs x = rank sccs y →
      Leads impls x y ∧ Leads impls y x := by
    intro x y p q hx hy heq
    have hconn := (hcomp.rank_spec (hmem hx) (hmem hy)).1.mp heq
    exact ⟨(hreach x (hperm.subset (hmem hx)) y).mp hconn.1,
      (hreach y (hperm.subset (hmem hy)) x).mp hconn.2⟩
  refine ⟨?_, ?_, fun x y p q hx hy hpq hxy => ?_, fun x y z p q r hx hy hz hpr hrq hxy => ?_⟩
  · rw [keys, List.zipIdx_map_fst]
    exact hperm
  · have hlen : sccs.flatten.length = impls.length := by
      rw [hperm.length_eq]
      exact List.length_map _
    rw [List.zipIdx_map_snd, hlen, List.range_eq_range']
  · exact (hleads hx hy (hsame hx hy hpq hxy)).2
  · have heq := hsame hx hy (hpr.trans hrq) hxy
    exact hleads hx hz (le_antisymm (hrank hx hz hpr) (heq ▸ hrank hz hy hrq))

/-- `ComputeSummaries` puts the implementations into the order of the components. -/
theorem computePriorities_order (existentialFunctions : List String) (impls : List FunctionsFound)
    (hnames : (impls.map FunctionsFound.implName).Nodup)
    (hassumed : ∀ i ∈ impls, ∀ f ∈ i.functionsAssumed, f ∈ existentialFunctions)
    (hasserted : ∀ i ∈ impls, ∀ f ∈ i.functionsAsserted, f ∈ existentialFunctions)
    (enumerate members : List String → List String) (henum : ∀ l x, x ∈ enumerate l ↔ x ∈ l)
    (hmembers : ∀ l, (members l).Perm l) :
    ∃ deps impl2Priority, genVCs existentialFunctions impls = .ok deps ∧
      computePriorities deps enumerate members (impls.map FunctionsFound.implName) hnames =
        .ok impl2Priority ∧
      PriorityOrder impls impl2Priority := by
  obtain ⟨deps, hdeps, hinv⟩ := genVCs_spec hnames hassumed hasserted
  obtain ⟨a, hadj, ha⟩ := adjacencies_spec hinv hnames hasserted
  have hgraph : (a.graph enumerate (impls.map FunctionsFound.implName) hnames).Inverse ∧ _ :=
    ha.graph_spec henum
  obtain ⟨hinverse, hreach⟩ := hgraph
  obtain ⟨sccs, hcompute, hperm, hcomp⟩ := compute_spec hinverse
  have hcomp' := hcomp.map hmembers
  refine ⟨deps, (sccs.map members).flatten.zipIdx, hdeps, ?_,
    priorityOrder_of_components ((flatten_map_perm hmembers sccs).trans hperm) hcomp' hreach⟩
  rw [computePriorities, hadj]
  simp only [bind, Except.bind, hcompute]
  exact addItem_zipIdx hcomp'.nodup

/-- A caller, and two implementations that assert what the other one assumes. -/
def callerAndLoops : List FunctionsFound :=
  [⟨"caller", [], ["f"]⟩, ⟨"even", ["f"], ["g"]⟩, ⟨"odd", ["g"], ["f"]⟩]

/-- Sets are visited in the order of insertion, components backwards. -/
theorem computePriorities_order_callerAndLoops :
    ∃ deps impl2Priority, genVCs ["f", "g"] callerAndLoops = .ok deps ∧
      computePriorities deps id List.reverse (callerAndLoops.map FunctionsFound.implName)
        (by decide) = .ok impl2Priority ∧
      PriorityOrder callerAndLoops impl2Priority :=
  computePriorities_order ["f", "g"] callerAndLoops (by decide) (by decide) (by decide) id
    List.reverse (fun _ _ => Iff.rfl) List.reverse_perm

end HiceDt.Boogie
