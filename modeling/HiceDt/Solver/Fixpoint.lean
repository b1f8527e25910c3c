import HiceDt.Solver.Setup

/-!
# The fixpoint of the markings

`compute_current_marking` on the markings and clause lists that `populate_meta_data` fills
(`hice-dt/src/horn_solver.cpp`, lines 91–98 and 132–145). The clauses may be cyclic, repeat
premises and conclude the false point.

Results:

* `markable_populateMetaData`: every live clause is listed at the points it mentions.
* `rules_congr`: the rules depend only on the set of the live clauses.
* `computeCurrentMarking_fixpoint`: the computation terminates with the derivations from single
  points, for every order of the clauses and every iteration order of the sets.
-/

namespace HiceDt.Solver

open HiceDt Horn SolverState

/-! ## Clauses over a list of points -/

/-- Every unsatisfied clause has premises and mentions only the points of `D`; its conclusion
    may be the false point. -/
def ClausesOver (D : List Ptr) (clauses : List HornCopy) : Prop :=
  ∀ c ∈ clauses, c.satisfiable = false → c.premises ≠ [] ∧ (∀ p ∈ c.premises, p ∈ D) ∧
    (c.conclusion ∈ D ∨ c.conclusion = .falseDatapoint)

instance (D : List Ptr) (clauses : List HornCopy) : Decidable (ClausesOver D clauses) :=
  inferInstanceAs (Decidable (∀ c ∈ clauses, _))

/-- The rules that the unsatisfied clauses stand for. -/
def clauseRules (clauses : List HornCopy) (r : Rule Ptr) : Prop :=
  ∃ c ∈ clauses, c.satisfiable = false ∧ r = ⟨c.premises, c.conclusion⟩

variable {D : List Ptr} {st : SolverState} {clauses clauses' : List HornCopy}

theorem clause_mem {k : ℕ} (h : st.Live k) : st.clause k ∈ st.copyOfHornConstraints := by
  have hk := h.lt
  rw [clause, List.getD_eq_getElem?_getD, List.getElem?_eq_getElem hk]
  exact List.getElem_mem hk

theorem rules_iff {r : Rule Ptr} : st.Rules r ↔ clauseRules st.copyOfHornConstraints r := by
  constructor
  · rintro ⟨k, hk, rfl⟩
    exact ⟨st.clause k, clause_mem hk, hk, rfl⟩
  · rintro ⟨c, hc, hlive, rfl⟩
    obtain ⟨k, hk, rfl⟩ := List.getElem_of_mem hc
    have hclause : st.clause k = st.copyOfHornConstraints[k] := by
      rw [clause, List.getD_eq_getElem?_getD, List.getElem?_eq_getElem hk]
      rfl
    refine ⟨k, ?_, ?_⟩
    · rw [Live, hclause]
      exact hlive
    · rw [rule, hclause]

/-- The order of the clauses and repeated clauses do not matter. -/
theorem rules_congr (h : ∀ c, c ∈ clauses ↔ c ∈ clauses') {m v : Ptr} :
    Derives (clauseRules clauses) (· = m) v ↔ Derives (clauseRules clauses') (· = m) v := by
  constructor
  · refine fun hd => hd.mono ?_ fun _ hx => hx
    rintro r ⟨c, hc, hr⟩
    exact ⟨c, (h c).mp hc, hr⟩
  · refine fun hd => hd.mono ?_ fun _ hx => hx
    rintro r ⟨c, hc, hr⟩
    exact ⟨c, (h c).mpr hc, hr⟩

/-! ## After `populate_meta_data` -/

theorem inScope_of_clausesOver (hover : ClausesOver D st.copyOfHornConstraints) {k : ℕ}
    (hk : st.Live k) :
    InScope D (st.clause k).conclusion ∧ ∀ p ∈ (st.clause k).premises, InScope D p := by
  obtain ⟨-, hpremises, hconclusion⟩ := hover _ (clause_mem hk) hk
  exact ⟨hconclusion, fun p hp => .inl (hpremises p hp)⟩

theorem markable_populateMetaData (hmark : ∀ x, st.marking x = [])
    (hover : ClausesOver D st.copyOfHornConstraints) : Markable D (populateMetaData D st) := by
  obtain ⟨hpop, -, hlisted⟩ := populateMetaData_spec st.mem hmark fun _ =>
    inScope_of_clausesOver hover
  intro k hk
  rw [Live, hpop.clause] at hk
  obtain ⟨hne, hpremises, hconclusion⟩ := hover _ (clause_mem hk) hk
  rw [hpop.clause]
  exact ⟨hne, fun p hp => ⟨hpremises p hp, hlisted k hk p (.inl hp)⟩, hconclusion⟩

/-- The markings after one computation. -/
theorem computeCurrentMarking_populated (ord : HashOrder) (hmark : ∀ x, st.marking x = [])
    (hover : ClausesOver D st.copyOfHornConstraints) {fuel : ℕ}
    (hfuel : D.length * (D.length + 1) < fuel) :
    ∃ st', computeCurrentMarking ord fuel (populateMetaData D st) = some st' ∧
      ∀ m v, m ∈ st'.marking v ↔ m ∈ D ∧ Derives (clauseRules st.copyOfHornConstraints) (· = m)
        v := by
  obtain ⟨hpop, hself, -⟩ := populateMetaData_spec st.mem hmark fun _ =>
    inScope_of_clausesOver hover
  obtain ⟨M, n, hrun, hM⟩ :=
    computeCurrentMarking_exact ord (markable_populateMetaData hmark hover) hself hfuel
  have hcopy : (populateMetaData D st).copyOfHornConstraints = st.copyOfHornConstraints := by
    rw [hpop.eq]
  have hrules : (populateMetaData D st).Rules = clauseRules st.copyOfHornConstraints := by
    funext r
    rw [← hcopy]
    exact propext rules_iff
  refine ⟨_, hrun, fun m v => ?_⟩
  rw [marking_setMarkings, hM, hrules]

/-- From every point marked with itself, `compute_current_marking` terminates, and a point marks
    exactly the points that are derivable from it alone. The markings are the same for the same
    clauses in another order and other iteration orders of the sets. -/
theorem computeCurrentMarking_fixpoint (hmark : ∀ x, st.marking x = [])
    (hover : ClausesOver D st.copyOfHornConstraints) (ord : HashOrder) {fuel : ℕ}
    (hfuel : D.length * (D.length + 1) < fuel) :
    (∀ x ∈ D, (populateMetaData D st).marking x = [x]) ∧
    ∃ st', computeCurrentMarking ord fuel (populateMetaData D st) = some st' ∧
      (∀ m ∈ D, ∀ v, m ≠ v →
        (m ∈ st'.marking v ↔ Derives (clauseRules st.copyOfHornConstraints) (· = m) v)) ∧
      (∀ m ∉ D, ∀ v, m ∉ st'.marking v) ∧
      ∀ st₂ : SolverState, (∀ x, st₂.marking x = []) →
        st₂.copyOfHornConstraints.Perm st.copyOfHornConstraints → ∀ (ord₂ : HashOrder) (fuel₂ : ℕ),
        D.length * (D.length + 1) < fuel₂ →
        ∃ st₂', computeCurrentMarking ord₂ fuel₂ (populateMetaData D st₂) = some st₂' ∧
          ∀ m v, m ∈ st₂'.marking v ↔ m ∈ st'.marking v := by
  obtain ⟨-, hself, -⟩ := populateMetaData_spec st.mem hmark fun _ => inScope_of_clausesOver hover
  obtain ⟨st', hrun, hexact⟩ := computeCurrentMarking_populated ord hmark hover hfuel
  refine ⟨hself.1, st', hrun, fun m hm v _ => ?_, fun m hm v hmem => ?_, ?_⟩
  · rw [hexact]
    exact and_iff_right hm
  · exact hm ((hexact m v).mp hmem).1
  · intro st₂ hmark₂ hperm ord₂ fuel₂ hfuel₂
    have hover₂ : ClausesOver D st₂.copyOfHornConstraints :=
      fun c hc => hover c (hperm.mem_iff.mp hc)
    obtain ⟨st₂', hrun₂, hexact₂⟩ := computeCurrentMarking_populated ord₂ hmark₂ hover₂ hfuel₂
    refine ⟨st₂', hrun₂, fun m v => ?_⟩
    rw [hexact₂, hexact, rules_congr fun c => hperm.mem_iff]

/-- Clauses with a cycle, a repeated premise and the false point as conclusion. -/
def cyclicClauses : SolverState where
  mem := fun _ => {}
  copyOfHornConstraints := [⟨[.point 0], .point 1, false, 1⟩, ⟨[.point 1], .point 0, false, 1⟩,
    ⟨[.point 1, .point 1], .falseDatapoint, false, 2⟩]

theorem computeCurrentMarking_fixpoint_cyclic :
    ∃ st', computeCurrentMarking .stored 7 (populateMetaData [.point 0, .point 1] cyclicClauses) =
      some st' ∧
      (.point 0 ∈ st'.marking .falseDatapoint ↔
        Derives (clauseRules cyclicClauses.copyOfHornConstraints) (· = .point 0)
          .falseDatapoint) := by
  obtain ⟨-, st', hrun, hexact, -⟩ := @computeCurrentMarking_fixpoint [.point 0, .point 1]
    cyclicClauses (fun _ => rfl) (by decide) HashOrder.stored 7 (by decide)
  exact ⟨st', hrun, hexact _ (by decide) _ (by decide)⟩

end HiceDt.Solver
