import HiceDt.Horndini.Prephase
import HiceDt.Lib.Machine

/-!
# The intervals of the pre-phase

The intervals of `horndini_prephase` as the code has them: pairs of numbers of type
`unsigned`, both inclusive (`hice-dt/include/horndini.h`, lines 153–194, and
`hice-dt/src/hice-dt.cpp`, lines 53–92). The bounds of an empty interval of predicates are
the number of predicates before it and that number minus one.

Results:

* `generateDerivedPredicatesAndIntervals_eq`, `generateDerivedPredicatesAndIntervals_ok`: the
  predicates are derived if no interval ends with the largest number, and only then.
* `initialConjunctions_eq`, `initialConjunctions_ok`: the initial conjunctions are the ones of
  `derivedIntervals`.
* `debugAssertions_of_sub`: the assertions hold for all conjunctions below these.
-/

namespace HiceDt.Horndini

open HiceDt Loop Machine

/-! ## Predicates and intervals -/

/-- The result of a loop, if it ends. -/
def ended {α : Type} : Option α → Except Error α
  | some a => .ok a
  | none => .error .outOfFuel

/-- The local variables of `generate_derived_predicates_and_intervals`. -/
structure Derivation where
  predicates : List DerivedPredicate := []
  intervals : List (ℕ × ℕ) := []
  right : ℕ := 0
deriving Repr

/-- The loop body for an attribute (lines 172–185); `right` counts the predicates. -/
def addPredicates (threshold : ℤ) (s : List DerivedPredicate × ℕ) (attr : ℕ) :
    List DerivedPredicate × ℕ :=
  (s.1 ++ attributePredicates threshold attr,
    (s.2 + (attributePredicates threshold attr).length) % 2 ^ 32)

/-- The loop body for an interval (lines 167–189). -/
def deriveInterval (threshold : ℤ) (fuel : ℕ) (s : Derivation) (interval : ℕ × ℕ) :
    Except Error Derivation := do
  let (predicates, right) ← ended (forInclusive 32 (addPredicates threshold) interval.2 fuel
    interval.1 (s.predicates, s.right))
  return ⟨predicates, s.intervals ++ [(s.right, (right + (2 ^ 32 - 1)) % 2 ^ 32)], right⟩

/-- `generate_derived_predicates_and_intervals`; `fuel` bounds the iterations of each loop. -/
def generateDerivedPredicatesAndIntervals (intervals : List (ℕ × ℕ)) (threshold : ℤ) (fuel : ℕ) :
    Except Error (List DerivedPredicate × List (ℕ × ℕ)) := do
  assert (0 ≤ threshold)
  let s ← intervals.foldlM (deriveInterval threshold fuel) {}
  return (s.predicates, s.intervals)

/-- An initial conjunction (`hice-dt.cpp`, lines 69–72). -/
def initialConjunction (fuel : ℕ) (interval : ℕ × ℕ) : Except Error (List ℕ) :=
  ended (forInclusive 32 (fun conjunction j => conjunction ++ [j]) interval.2 fuel interval.1 [])

/-- The initial conjunctions (`hice-dt.cpp`, lines 66–73). -/
def initialConjunctions (fuel : ℕ) (derived : List (ℕ × ℕ)) : Except Error (List (List ℕ)) :=
  derived.mapM (initialConjunction fuel)

/-- The assertions about the conjunctions that are left (`hice-dt.cpp`, lines 84–92). -/
def debugAssertions (predicates : List DerivedPredicate) (intervals derived : List (ℕ × ℕ))
    (conjunctions : List (List ℕ)) : Bool :=
  (List.range conjunctions.length).all fun i => (conjunctions.getD i []).all fun c =>
    let attr := (predicateAt predicates c).index
    (derived.getD i (0, 0)).1 ≤ c ∧ c ≤ (derived.getD i (0, 0)).2 ∧
      (intervals.getD i (0, 0)).1 ≤ attr ∧ attr ≤ (intervals.getD i (0, 0)).2

/-! ## The predicates -/

/-- The interval with the attribute after its last one. -/
def halfOpen (interval : ℕ × ℕ) : ℕ × ℕ := (interval.1, interval.2 + 1)

/-- The intervals of the derived predicates; `n` counts the predicates. -/
def unsignedIntervals (threshold : ℤ) : List (ℕ × ℕ) → ℕ → List (ℕ × ℕ)
  | [], _ => []
  | interval :: rest, n =>
    let next := n + (intervalPredicates threshold (halfOpen interval)).length
    (n % 2 ^ 32, (next % 2 ^ 32 + (2 ^ 32 - 1)) % 2 ^ 32) :: unsignedIntervals threshold rest next

variable {threshold : ℤ} {fuel : ℕ} {intervals : List (ℕ × ℕ)} {interval : ℕ × ℕ}

theorem ended_eq_ok {α : Type} {result : Option α} {a : α} :
    ended result = .ok a ↔ result = some a := by
  cases result with
  | none => simp [ended]
  | some b => simp [ended]

theorem foldl_addPredicates (threshold : ℤ) (attrs : List ℕ) (predicates : List DerivedPredicate) :
    attrs.foldl (addPredicates threshold) (predicates, predicates.length % 2 ^ 32) =
      (predicates ++ attrs.flatMap (attributePredicates threshold),
        (predicates ++ attrs.flatMap (attributePredicates threshold)).length % 2 ^ 32) := by
  induction attrs generalizing predicates with
  | nil => simp
  | cons attr attrs ih =>
    have hstep : addPredicates threshold (predicates, predicates.length % 2 ^ 32) attr =
        (predicates ++ attributePredicates threshold attr,
          (predicates ++ attributePredicates threshold attr).length % 2 ^ 32) := by
      rw [addPredicates, List.length_append, Nat.mod_add_mod]
    rw [List.foldl_cons, hstep, ih, List.flatMap_cons, List.append_assoc]

/-- The local variables after an interval. -/
def Derivation.next (threshold : ℤ) (s : Derivation) (interval : ℕ × ℕ) : Derivation :=
  let predicates := s.predicates ++ intervalPredicates threshold (halfOpen interval)
  { predicates := predicates
    intervals := s.intervals ++
      [(s.right, (predicates.length % 2 ^ 32 + (2 ^ 32 - 1)) % 2 ^ 32)]
    right := predicates.length % 2 ^ 32 }

theorem Derivation.foldl_next (intervals : List (ℕ × ℕ)) {s : Derivation}
    (hright : s.right = s.predicates.length % 2 ^ 32) :
    (intervals.foldl (Derivation.next threshold) s).predicates =
        s.predicates ++ generateDerivedPredicates (intervals.map halfOpen) threshold ∧
      (intervals.foldl (Derivation.next threshold) s).intervals =
        s.intervals ++ unsignedIntervals threshold intervals s.predicates.length := by
  induction intervals generalizing s with
  | nil => simp [generateDerivedPredicates, unsignedIntervals]
  | cons interval intervals ih =>
    obtain ⟨hpredicates, hintervals⟩ := @ih (s.next threshold interval) rfl
    rw [List.foldl_cons, hpredicates, hintervals]
    constructor
    · simp [Derivation.next, generateDerivedPredicates]
    · simp [Derivation.next, unsignedIntervals, hright]

theorem Derivation.foldl_right (intervals : List (ℕ × ℕ)) {s : Derivation}
    (hright : s.right = s.predicates.length % 2 ^ 32) :
    (intervals.foldl (Derivation.next threshold) s).right =
      (intervals.foldl (Derivation.next threshold) s).predicates.length % 2 ^ 32 := by
  induction intervals generalizing s with
  | nil => exact hright
  | cons interval intervals ih => exact @ih (s.next threshold interval) rfl

theorem deriveInterval_eq (hlast : interval.2 + 1 < 2 ^ 32) (hfuel : 2 ^ 32 ≤ fuel) {s : Derivation}
    (hright : s.right = s.predicates.length % 2 ^ 32) :
    deriveInterval threshold fuel s interval = .ok (s.next threshold interval) := by
  rw [deriveInterval, hright, forInclusive_eq hlast _ (by omega), foldl_addPredicates]
  simp only [ended, bind, Except.bind, Derivation.next, hright]
  rfl

/-- The result for an interval, if there is one. -/
theorem deriveInterval_ok (hfirst : interval.1 < 2 ^ 32) {s s' : Derivation}
    (hright : s.right = s.predicates.length % 2 ^ 32)
    (h : deriveInterval threshold fuel s interval = .ok s') :
    interval.2 + 1 < 2 ^ 32 ∧ s' = s.next threshold interval := by
  obtain ⟨⟨predicates, right⟩, hloop, hret⟩ := bind_ok.mp h
  rw [ended_eq_ok, hright] at hloop
  obtain ⟨hlast, heq⟩ := forInclusive_some hfirst hloop
  rw [foldl_addPredicates] at heq
  obtain ⟨rfl, rfl⟩ := Prod.mk.inj heq
  exact ⟨hlast, (Except.ok.inj hret).symm⟩

/-- The result, if no interval ends with the largest number. -/
theorem generateDerivedPredicatesAndIntervals_eq (hthreshold : 0 ≤ threshold)
    (hlast : ∀ interval ∈ intervals, interval.2 + 1 < 2 ^ 32) (hfuel : 2 ^ 32 ≤ fuel) :
    generateDerivedPredicatesAndIntervals intervals threshold fuel =
      .ok (generateDerivedPredicates (intervals.map halfOpen) threshold,
        unsignedIntervals threshold intervals 0) := by
  obtain ⟨s, hloop, rfl⟩ := foldlM_returns (f := deriveInterval threshold fuel) (l := intervals)
    (s := {})
    (I := fun done s => s = done.foldl (Derivation.next threshold) {})
    (fun done interval rest s hl _ hs => by
      subst hs
      have hmem : interval ∈ intervals := hl ▸ List.mem_append_right done List.mem_cons_self
      refine ⟨_, deriveInterval_eq (hlast interval hmem) hfuel (Derivation.foldl_right done rfl),
        ?_⟩
      rw [List.foldl_append]
      rfl) rfl
  obtain ⟨hpredicates, hintervals⟩ := @Derivation.foldl_next threshold intervals {} rfl
  simp only [generateDerivedPredicatesAndIntervals, hthreshold, decide_true, assert_true, bind,
    Except.bind, hloop]
  rw [hpredicates, hintervals]
  rfl

/-- The result, if there is one. -/
theorem generateDerivedPredicatesAndIntervals_ok
    (hfirst : ∀ interval ∈ intervals, interval.1 < 2 ^ 32)
    {predicates : List DerivedPredicate} {derived : List (ℕ × ℕ)}
    (h : generateDerivedPredicatesAndIntervals intervals threshold fuel =
      .ok (predicates, derived)) :
    (∀ interval ∈ intervals, interval.2 + 1 < 2 ^ 32) ∧
      predicates = generateDerivedPredicates (intervals.map halfOpen) threshold ∧
      derived = unsignedIntervals threshold intervals 0 := by
  obtain ⟨_, _, h⟩ := bind_ok.mp h
  obtain ⟨s, hs, hret⟩ := bind_ok.mp h
  have hloop : (∀ interval ∈ intervals, interval.2 + 1 < 2 ^ 32) ∧
      s = intervals.foldl (Derivation.next threshold) {} := by
    refine foldlM_ok_spec (I := fun done s => (∀ interval ∈ done, interval.2 + 1 < 2 ^ 32) ∧
      s = done.foldl (Derivation.next threshold) {}) (fun done interval rest s s' hl hs hstep => ?_)
      ⟨List.forall_mem_nil _, rfl⟩ hs
    obtain ⟨hdone, rfl⟩ := hs
    have hmem : interval ∈ intervals := hl ▸ List.mem_append_right done List.mem_cons_self
    obtain ⟨hlast, rfl⟩ := deriveInterval_ok (hfirst interval hmem)
      (Derivation.foldl_right done rfl) hstep
    refine ⟨List.forall_mem_append.mpr ⟨hdone, List.forall_mem_singleton.mpr hlast⟩, ?_⟩
    rw [List.foldl_append]
    rfl
  obtain ⟨hlast, rfl⟩ := hloop
  obtain ⟨hpredicates, hintervals⟩ := @Derivation.foldl_next threshold intervals {} rfl
  obtain ⟨rfl, rfl⟩ := Prod.mk.inj (Except.ok.inj hret)
  exact ⟨hlast, hpredicates, hintervals⟩

/-! ## The conjunctions -/

theorem foldl_concat_eq_append {α : Type} (l l' : List α) :
    l'.foldl (fun l a => l ++ [a]) l = l ++ l' := by
  induction l' generalizing l with
  | nil => exact (List.append_nil l).symm
  | cons a l' ih => rw [List.foldl_cons, ih, List.append_assoc, List.singleton_append]

theorem initialConjunction_eq (hlast : interval.2 + 1 < 2 ^ 32) (hfuel : 2 ^ 32 ≤ fuel) :
    initialConjunction fuel interval =
      .ok (List.range' interval.1 (interval.2 + 1 - interval.1)) := by
  rw [initialConjunction, forInclusive_eq hlast _ (by omega), foldl_concat_eq_append]
  rfl

theorem initialConjunction_ok (hfirst : interval.1 < 2 ^ 32) {conjunction : List ℕ}
    (h : initialConjunction fuel interval = .ok conjunction) : interval.2 + 1 < 2 ^ 32 ∧
      conjunction = List.range' interval.1 (interval.2 + 1 - interval.1) := by
  obtain ⟨hlast, heq⟩ := forInclusive_some hfirst (ended_eq_ok.mp h)
  rw [foldl_concat_eq_append] at heq
  exact ⟨hlast, heq⟩

/-- The last predicate of an interval, unless there is none so far. -/
theorem last_eq {next : ℕ} (hnext : next < 2 ^ 32) :
    (next % 2 ^ 32 + (2 ^ 32 - 1)) % 2 ^ 32 = if next = 0 then 2 ^ 32 - 1 else next - 1 := by
  split_ifs with h
  · rw [h]
    rfl
  · omega

/-- The initial conjunctions, if there is a predicate in the first interval. -/
theorem initialConjunctions_eq (hfuel : 2 ^ 32 ≤ fuel) {n : ℕ}
    (hbound : n + (generateDerivedPredicates (intervals.map halfOpen) threshold).length < 2 ^ 32)
    (hpos : ∀ interval ∈ intervals.head?,
      0 < n + (intervalPredicates threshold (halfOpen interval)).length) :
    initialConjunctions fuel (unsignedIntervals threshold intervals n) =
      .ok (derivedIntervals threshold (intervals.map halfOpen) n) := by
  induction intervals generalizing n with
  | nil => rfl
  | cons interval rest ih =>
    rw [List.map_cons, length_generateDerivedPredicates_cons] at hbound
    have hnext := hpos interval rfl
    have hrest := ih (n := n + (intervalPredicates threshold (halfOpen interval)).length) (by omega)
      fun _ _ => by omega
    have hfirst : initialConjunction fuel (n % 2 ^ 32,
        ((n + (intervalPredicates threshold (halfOpen interval)).length) % 2 ^ 32 + (2 ^ 32 - 1)) %
          2 ^ 32) =
        .ok (List.range' n (intervalPredicates threshold (halfOpen interval)).length) := by
      rw [last_eq (by omega), if_neg (by omega), Nat.mod_eq_of_lt (by omega),
        initialConjunction_eq (by dsimp only; omega) hfuel]
      dsimp only
      rw [show n + (intervalPredicates threshold (halfOpen interval)).length - 1 + 1 - n =
        (intervalPredicates threshold (halfOpen interval)).length by omega]
    rw [initialConjunctions] at hrest ⊢
    rw [unsignedIntervals, List.mapM_cons, hfirst, hrest]
    rfl

/-- The initial conjunctions, if the loops end. -/
theorem initialConjunctions_ok {n : ℕ}
    (hbound : n + (generateDerivedPredicates (intervals.map halfOpen) threshold).length < 2 ^ 32)
    {conjunctions : List (List ℕ)}
    (h : initialConjunctions fuel (unsignedIntervals threshold intervals n) = .ok conjunctions) :
    conjunctions = derivedIntervals threshold (intervals.map halfOpen) n := by
  induction intervals generalizing n conjunctions with
  | nil => exact (Except.ok.inj h).symm
  | cons interval rest ih =>
    rw [List.map_cons, length_generateDerivedPredicates_cons] at hbound
    rw [unsignedIntervals, initialConjunctions, List.mapM_cons, bind_ok] at h
    obtain ⟨conjunction, hconjunction, h⟩ := h
    obtain ⟨conjunctions', hrest, hret⟩ := bind_ok.mp h
    rw [last_eq (by omega), Nat.mod_eq_of_lt (by omega)] at hconjunction
    obtain ⟨hlast, rfl⟩ := initialConjunction_ok (by dsimp only; omega) hconjunction
    rw [← Except.ok.inj hret, ih (by omega) hrest]
    rw [List.map_cons, derivedIntervals]
    congr 1
    dsimp only at hlast ⊢
    split_ifs at hlast ⊢ with hzero
    · omega
    · congr 1
      omega

/-! ## The assertions -/

/-- The indices in a conjunction are between the bounds of its interval. -/
theorem unsignedIntervals_bounds {n : ℕ}
    (hbound : n + (generateDerivedPredicates (intervals.map halfOpen) threshold).length < 2 ^ 32)
    {i c : ℕ} (hc : c ∈ (derivedIntervals threshold (intervals.map halfOpen) n).getD i []) :
    ((unsignedIntervals threshold intervals n).getD i (0, 0)).1 ≤ c ∧
      c ≤ ((unsignedIntervals threshold intervals n).getD i (0, 0)).2 := by
  induction intervals generalizing n i with
  | nil => simp [derivedIntervals] at hc
  | cons interval rest ih =>
    rw [List.map_cons, length_generateDerivedPredicates_cons] at hbound
    cases i with
    | zero =>
      have hmem : c ∈ List.range' n (intervalPredicates threshold (halfOpen interval)).length := hc
      rw [List.mem_range'_1] at hmem
      rw [unsignedIntervals, List.getD_cons_zero]
      dsimp only
      rw [last_eq (by omega), if_neg (by omega), Nat.mod_eq_of_lt (by omega)]
      omega
    | succ i => exact ih (by omega) hc

theorem getD_map_halfOpen (intervals : List (ℕ × ℕ)) {i : ℕ} (hi : i < intervals.length) :
    (intervals.map halfOpen).getD i (0, 0) = halfOpen (intervals.getD i (0, 0)) := by
  rw [List.getD_eq_getElem _ _ (by rwa [List.length_map]), List.getElem_map,
    List.getD_eq_getElem _ _ hi]

/-- The assertions hold if all conjunctions are parts of the initial ones. -/
theorem debugAssertions_of_sub
    (hbound : (generateDerivedPredicates (intervals.map halfOpen) threshold).length < 2 ^ 32)
    {X : List (List ℕ)} (hsub : Sub X (derivedIntervals threshold (intervals.map halfOpen) 0)) :
    debugAssertions (generateDerivedPredicates (intervals.map halfOpen) threshold) intervals
      (unsignedIntervals threshold intervals 0) X = true := by
  have hlen : X.length = intervals.length := by
    rw [hsub.length_eq, derivedIntervals_length, List.length_map]
  unfold debugAssertions
  rw [List.all_eq_true]
  intro i hi
  rw [List.all_eq_true]
  intro c hc
  have hmem := (hsub.getD i).subset hc
  obtain ⟨hleft, hright⟩ := unsignedIntervals_bounds (by omega) hmem
  obtain ⟨hle, hlt⟩ := derivedIntervals_index threshold (intervals.map halfOpen) [] i c hmem
  rw [getD_map_halfOpen intervals (hlen ▸ List.mem_range.mp hi)] at hle hlt
  exact decide_eq_true ⟨hleft, hright, hle, Nat.le_of_lt_succ hlt⟩

end HiceDt.Horndini
