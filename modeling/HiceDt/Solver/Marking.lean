import Mathlib.Data.Finset.Prod
import HiceDt.Solver.State

/-!
# The marking computation

`compute_current_marking` calls `compute_marking` on every live clause;
`compute_marking` calls itself on the clauses that mention the conclusion
whenever the markings of the conclusion grow. There is no visited set: the
recursion terminates because the number of unmarked pairs shrinks.

Results:

* `computeMarking_spec`: with fuel above the number of unmarked pairs,
  `compute_marking` returns; it only adds markings, keeps every closed clause
  closed and closes its own clause.
* `computeCurrentMarking_exact`: started from every point marked with itself,
  `compute_current_marking` ends with `m` marking `v` iff `v` is derivable from
  `m` alone with the live clauses.
-/

namespace HiceDt.Solver

open HiceDt Horn SolverState

/-- Under the markings `M`, clause `c` has nothing to add. -/
def Closed (M : Ptr → List Ptr) (c : HornCopy) : Prop :=
  ∀ m, (∀ p ∈ c.premises, m ∈ M p) → m ∈ M c.conclusion

theorem closed_of_conclusion_mem {M : Ptr → List Ptr} {c : HornCopy}
    (h : c.conclusion ∈ c.premises) : Closed M c := fun _ hm => hm _ h

/-- What the marking computation needs to know about the live clauses over the
    points `D`. -/
def Markable (D : List Ptr) (st : SolverState) : Prop :=
  ∀ k, st.Live k → (st.clause k).premises ≠ [] ∧
    (∀ p ∈ (st.clause k).premises, p ∈ D ∧ k ∈ st.clausesOf p) ∧
    ((st.clause k).conclusion ∈ D ∨ (st.clause k).conclusion = .falseDatapoint)

/-- Every marking is a point of `D` and is justified by a derivation. -/
def Justified (D : List Ptr) (st : SolverState) (M : Ptr → List Ptr) : Prop :=
  ∀ v, ∀ m ∈ M v, m ∈ D ∧ Derives st.Rules (· = m) v

/-! ## The termination measure -/

/-- The pairs of a point and a point (or the false point) that it does not mark. -/
def unmarkedPairs (D : List Ptr) (M : Ptr → List Ptr) : Finset (Ptr × Ptr) :=
  (D.toFinset ×ˢ insert .falseDatapoint D.toFinset).filter fun mv => mv.1 ∉ M mv.2

theorem unmarkedPairs_subset {D : List Ptr} {M M' : Ptr → List Ptr}
    (h : ∀ v, ∀ m ∈ M v, m ∈ M' v) : unmarkedPairs D M' ⊆ unmarkedPairs D M := by
  intro mv hmv
  simp only [unmarkedPairs, Finset.mem_filter] at hmv ⊢
  exact ⟨hmv.1, fun hm => hmv.2 (h _ _ hm)⟩

theorem unmarkedPairs_card_lt {D : List Ptr} {M M' : Ptr → List Ptr}
    (h : ∀ v, ∀ m ∈ M v, m ∈ M' v) {m v : Ptr} (hm : m ∈ D)
    (hv : v ∈ D ∨ v = .falseDatapoint) (hM : m ∉ M v) (hM' : m ∈ M' v) :
    (unmarkedPairs D M').card < (unmarkedPairs D M).card := by
  apply Finset.card_lt_card
  refine ⟨unmarkedPairs_subset h, fun hsub => ?_⟩
  have hin : (m, v) ∈ unmarkedPairs D M := by
    simp only [unmarkedPairs, Finset.mem_filter, Finset.mem_product, List.mem_toFinset,
      Finset.mem_insert]
    exact ⟨⟨hm, hv.symm⟩, hM⟩
  have := hsub hin
  simp only [unmarkedPairs, Finset.mem_filter] at this
  exact this.2 hM'

theorem unmarkedPairs_card_le (D : List Ptr) (M : Ptr → List Ptr) :
    (unmarkedPairs D M).card ≤ D.length * (D.length + 1) := by
  calc (unmarkedPairs D M).card
      ≤ (D.toFinset ×ˢ insert Ptr.falseDatapoint D.toFinset).card := Finset.card_filter_le _ _
    _ = D.toFinset.card * (insert Ptr.falseDatapoint D.toFinset).card := Finset.card_product _ _
    _ ≤ D.length * (D.length + 1) :=
        Nat.mul_le_mul (List.toFinset_card_le D)
          ((Finset.card_insert_le _ _).trans (Nat.succ_le_succ (List.toFinset_card_le D)))

/-! ## One clause -/

theorem markConclusion_foldl_of_mem {rest : List Ptr} {v : Ptr} (hv : v ∈ rest) (l : List Ptr)
    (acc : SolverState × Bool) : l.foldl (markConclusion rest v) acc = acc := by
  induction l generalizing acc with
  | nil => rfl
  | cons m l ih =>
    rw [List.foldl_cons, ih]
    obtain ⟨st, b⟩ := acc
    simp only [markConclusion]
    split_ifs with h1 h2
    · rfl
    · simp only [List.all_eq_true] at h1
      exact absurd (h1 v hv) h2
    · rfl

/-- What the loop over the markings `l` of the first premise does to the markings `M₀` and
    the flag `b`: it inserts the markings that the other premises have at the conclusion `v`,
    and sets the flag when one of them is new. -/
structure Inserts (rest : List Ptr) (v : Ptr) (M₀ : Ptr → List Ptr) (l : List Ptr) (b : Bool)
    (M : Ptr → List Ptr) (b' : Bool) : Prop where
  other : ∀ x, x ≠ v → M x = M₀ x
  conclusion : ∀ m, m ∈ M v ↔ m ∈ M₀ v ∨ m ∈ l ∧ ∀ p ∈ rest, m ∈ M₀ p
  flag : b' = true ↔ b = true ∨ ∃ m ∈ l, m ∉ M₀ v ∧ m ∈ M v

section inserts

variable {rest : List Ptr} {v m₀ : Ptr} {l : List Ptr} {M M₀ : Ptr → List Ptr} {b b' : Bool}
  {st : SolverState}

theorem markConclusion_keep (h : m₀ ∈ st.marking v ∨ ¬ ∀ p ∈ rest, m₀ ∈ st.marking p) :
    markConclusion rest v (st, b) m₀ = (st, b) := by
  rcases h with h | h
  · have h' : m₀ ∈ (st.mem v).listOfMarking := h
    simp [markConclusion, h']
  · have h' : ¬ ∀ p ∈ rest, m₀ ∈ (st.mem p).listOfMarking := h
    simp only [markConclusion]
    rw [if_neg (by simpa using h')]

theorem markConclusion_insert (hv : m₀ ∉ st.marking v) (h : ∀ p ∈ rest, m₀ ∈ st.marking p) :
    markConclusion rest v (st, b) m₀ =
      (st.setMarkings (Function.update st.marking v ((st.marking v).insert m₀)) st.clock,
        true) := by
  have hv' : m₀ ∉ (st.mem v).listOfMarking := hv
  have h' : ∀ p ∈ rest, m₀ ∈ (st.mem p).listOfMarking := h
  rw [← insertMarking_eq]
  simp only [markConclusion, List.contains_iff_mem, List.all_eq_true]
  rw [if_pos (by simpa using h'), if_neg (by simpa using hv')]

/-- A marking that the conclusion has, or that another premise lacks, changes nothing. -/
theorem Inserts.keep (h : Inserts rest v M₀ l b M b')
    (hm : m₀ ∈ M₀ v ∨ ¬ ∀ p ∈ rest, m₀ ∈ M₀ p) : Inserts rest v M₀ (m₀ :: l) b M b' where
  other := h.other
  conclusion m := by
    rw [h.conclusion, List.mem_cons]
    constructor
    · rintro (hM | ⟨hl, hr⟩)
      · exact .inl hM
      · exact .inr ⟨.inr hl, hr⟩
    · rintro (hM | ⟨rfl | hl, hr⟩)
      · exact .inl hM
      · exact .inl (hm.resolve_right fun hn => hn hr)
      · exact .inr ⟨hl, hr⟩
  flag := by
    rw [h.flag, List.exists_mem_cons_iff]
    have hno : ¬ (m₀ ∉ M₀ v ∧ m₀ ∈ M v) := by
      intro ⟨hn, hM⟩
      rcases (h.conclusion m₀).mp hM with hM | ⟨-, hr⟩
      · exact hn hM
      · exact hm.resolve_left hn hr
    rw [or_iff_right hno]

/-- A marking that all other premises have is inserted and sets the flag. -/
theorem Inserts.insert (hv : v ∉ rest) (hm : m₀ ∉ M₀ v) (hr : ∀ p ∈ rest, m₀ ∈ M₀ p)
    (h : Inserts rest v (Function.update M₀ v ((M₀ v).insert m₀)) l true M b') :
    Inserts rest v M₀ (m₀ :: l) b M b' := by
  have hrest : ∀ m, (∀ p ∈ rest, m ∈ Function.update M₀ v ((M₀ v).insert m₀) p) ↔
      ∀ p ∈ rest, m ∈ M₀ p := by
    refine fun m => forall₂_congr fun p hp => ?_
    rw [Function.update_of_ne (by rintro rfl; exact hv hp)]
  have hM : ∀ m, m ∈ M v ↔ m ∈ M₀ v ∨ m ∈ m₀ :: l ∧ ∀ p ∈ rest, m ∈ M₀ p := by
    intro m
    rw [h.conclusion, hrest, Function.update_self, List.mem_insert_iff, List.mem_cons]
    constructor
    · rintro ((rfl | hm') | ⟨hl, hr'⟩)
      · exact .inr ⟨.inl rfl, hr⟩
      · exact .inl hm'
      · exact .inr ⟨.inr hl, hr'⟩
    · rintro (hm' | ⟨rfl | hl, hr'⟩)
      · exact .inl (.inr hm')
      · exact .inl (.inl rfl)
      · exact .inr ⟨hl, hr'⟩
  refine ⟨fun x hx => ?_, hM, ?_⟩
  · rw [h.other x hx, Function.update_of_ne hx]
  · have hin : m₀ ∈ M v := (hM m₀).mpr (.inr ⟨List.mem_cons_self, hr⟩)
    have hflag : b' = true := h.flag.mpr (.inl rfl)
    exact ⟨fun _ => .inr ⟨m₀, List.mem_cons_self, hm, hin⟩, fun _ => hflag⟩

/-- The loop over the markings of the first premise, for a conclusion that is not
    among the other premises. -/
theorem markConclusion_foldl (hv : v ∉ rest) (l : List Ptr) (st : SolverState) (b : Bool) :
    ∃ M, (l.foldl (markConclusion rest v) (st, b)).1 = st.setMarkings M st.clock ∧
      Inserts rest v st.marking l b M (l.foldl (markConclusion rest v) (st, b)).2 := by
  induction l generalizing st b with
  | nil => exact ⟨st.marking, rfl, fun _ _ => rfl, by simp, by simp⟩
  | cons m₀ l ih =>
    rw [List.foldl_cons]
    by_cases hm : m₀ ∈ st.marking v ∨ ¬ ∀ p ∈ rest, m₀ ∈ st.marking p
    · rw [markConclusion_keep hm]
      obtain ⟨M, hst, hM⟩ := ih st b
      exact ⟨M, hst, hM.keep hm⟩
    · obtain ⟨hin, hr⟩ := not_or.mp hm
      rw [not_not] at hr
      rw [markConclusion_insert hin hr]
      obtain ⟨M, hst, hM⟩ := ih (st.setMarkings _ st.clock) true
      exact ⟨M, hst, .insert hv hin hr hM⟩

end inserts

/-- What a run of the marking computation, started with the markings `M`, may
    have changed when the markings are `M'`. -/
structure Extends (D : List Ptr) (st : SolverState) (M M' : Ptr → List Ptr) : Prop where
  grows : ∀ v, ∀ m ∈ M v, m ∈ M' v
  justified : Justified D st M'
  closed : ∀ j, st.Live j → Closed M (st.clause j) → Closed M' (st.clause j)

theorem Extends.refl {D : List Ptr} {st : SolverState} {M : Ptr → List Ptr}
    (hJ : Justified D st M) : Extends D st M M :=
  ⟨fun _ _ h => h, hJ, fun _ _ h => h⟩

theorem Extends.trans {D : List Ptr} {st : SolverState} {M M' M'' : Ptr → List Ptr}
    (h : Extends D st M M') (h' : Extends D st M' M'') : Extends D st M M'' :=
  ⟨fun v m hm => h'.grows v m (h.grows v m hm), h'.justified,
    fun j hj hc => h'.closed j hj (h.closed j hj hc)⟩

/-- The markings `M₁` are `M` after the insertions that `compute_marking` makes for the
    clause `k` with the premises `master :: rest`. -/
structure Inserted (st : SolverState) (k : ℕ) (master : Ptr) (rest : List Ptr)
    (M M₁ : Ptr → List Ptr) : Prop where
  premises : (st.clause k).premises = master :: rest
  other : ∀ x, x ≠ (st.clause k).conclusion → M₁ x = M x
  conclusion : ∀ m, m ∈ M₁ (st.clause k).conclusion ↔ m ∈ M (st.clause k).conclusion ∨
    m ∈ M master ∧ ∀ p ∈ rest, m ∈ M p

section marked

variable {D : List Ptr} {st : SolverState} {M M₁ M₂ : Ptr → List Ptr} {j k : ℕ} {master : Ptr}
  {rest : List Ptr}

theorem Inserted.grows (h : Inserted st k master rest M M₁) : ∀ w, ∀ m ∈ M w, m ∈ M₁ w := by
  intro w m hm
  by_cases hw : w = (st.clause k).conclusion
  · subst hw
    exact (h.conclusion m).mpr (.inl hm)
  · rw [h.other w hw]
    exact hm

theorem Inserted.justified (h : Inserted st k master rest M M₁) (hJ : Justified D st M)
    (hk : st.Live k) : Justified D st M₁ := by
  intro v m hm
  by_cases hv : v = (st.clause k).conclusion
  · subst hv
    rcases (h.conclusion m).mp hm with hM | ⟨hM, hM'⟩
    · exact hJ _ m hM
    · refine ⟨(hJ _ m hM).1, Derives.rule (r := st.rule k) ⟨k, hk, rfl⟩ ?_⟩
      intro p hp
      have hp' : p ∈ master :: rest := by rw [← h.premises]; exact hp
      rcases List.mem_cons.mp hp' with rfl | hp'
      · exact (hJ _ m hM).2
      · exact (hJ _ m (hM' p hp')).2
  · rw [h.other v hv] at hm
    exact hJ v m hm

/-- The insertions close the clause `k`, and a closed clause stays so unless the conclusion of
    `k` is a premise of it. -/
theorem Inserted.closed (h : Inserted st k master rest M M₁)
    (hor : j = k ∨ Closed M (st.clause j))
    (hguard : (st.clause k).conclusion ∈ (st.clause j).premises →
      (st.clause j).conclusion = (st.clause k).conclusion) : Closed M₁ (st.clause j) := by
  by_cases hv : (st.clause k).conclusion ∈ (st.clause j).premises
  · exact closed_of_conclusion_mem (by rw [hguard hv]; exact hv)
  · intro m hm
    -- the markings of the premises are the old ones
    have hold : ∀ p ∈ (st.clause j).premises, m ∈ M p := by
      intro p hp
      have := hm p hp
      rwa [h.other p (by rintro rfl; exact hv hp)] at this
    rcases hor with rfl | hcl
    · rw [h.premises] at hold
      exact (h.conclusion m).mpr
        (.inr ⟨hold master List.mem_cons_self, fun p hp => hold p (List.mem_cons_of_mem _ hp)⟩)
    · exact h.grows _ _ (hcl m hold)

/-- If the conclusion of `k` got no new marking, every closed clause is closed still. -/
theorem Inserted.extends (h : Inserted st k master rest M M₁) (hJ : Justified D st M)
    (hk : st.Live k) (hsame : ∀ m ∈ M₁ (st.clause k).conclusion, m ∈ M (st.clause k).conclusion) :
    Extends D st M M₁ := by
  refine ⟨h.grows, h.justified hJ hk, fun j _ hcl m hm => h.grows _ _ (hcl m fun p hp => ?_)⟩
  by_cases hpv : p = (st.clause k).conclusion
  · rw [hpv]
    exact hsame m (hpv ▸ hm p hp)
  · rw [← h.other p hpv]
    exact hm p hp

/-- What holds of the markings `M₂` while `compute_marking` revisits the clauses that mention
    the conclusion of `k`: the clauses that its new markings may have opened are closed again
    once they are in `done`. -/
structure Revisited (D : List Ptr) (st : SolverState) (k : ℕ) (M M₁ : Ptr → List Ptr)
    (done : List ℕ) (M₂ : Ptr → List Ptr) : Prop where
  grows : ∀ w, ∀ m ∈ M₁ w, m ∈ M₂ w
  justified : Justified D st M₂
  closed : ∀ j, st.Live j → (j = k ∨ Closed M (st.clause j)) →
    ((st.clause k).conclusion ∈ (st.clause j).premises →
      (st.clause j).conclusion ≠ (st.clause k).conclusion → j ∈ done) → Closed M₂ (st.clause j)

theorem Inserted.revisited (h : Inserted st k master rest M M₁) (hJ : Justified D st M)
    (hk : st.Live k) : Revisited D st k M M₁ [] M₁ := by
  refine ⟨fun _ _ hm => hm, h.justified hJ hk, fun j _ hor hguard => h.closed hor fun hv => ?_⟩
  by_contra hne
  simpa using hguard hv hne

/-- After all clauses that mention the conclusion, every closed clause and `k` are closed. -/
theorem Revisited.extends {done : List ℕ} (h : Revisited D st k M M₁ done M₂)
    (hM : Inserted st k master rest M M₁) (hk : st.Live k)
    (hdone : ∀ j, st.Live j → (st.clause k).conclusion ∈ (st.clause j).premises → j ∈ done) :
    Extends D st M M₂ ∧ Closed M₂ (st.clause k) := by
  refine ⟨⟨fun w m hm => h.grows w m (hM.grows w m hm), h.justified, ?_⟩, ?_⟩
  · exact fun j hj hcl => h.closed j hj (.inr hcl) fun hv _ => hdone j hj hv
  · exact h.closed k hk (.inl rfl) fun _ hne => absurd rfl hne

/-- `compute_marking` with this fuel returns on every live clause when fewer pairs are
    unmarked; it extends the markings and closes its clause. -/
def Computes (D : List Ptr) (st : SolverState) (ord : HashOrder) (fuel : ℕ) : Prop :=
  ∀ (M : Ptr → List Ptr) (n k : ℕ), Justified D st M → st.Live k →
    (unmarkedPairs D M).card < fuel →
    ∃ M' n', computeMarking ord fuel k (st.setMarkings M n) = some (st.setMarkings M' n') ∧
      Extends D st M M' ∧ Closed M' (st.clause k)

/-- One clause that mentions the conclusion of `k` is revisited, or skipped when it is
    satisfied or has the same conclusion. -/
theorem Revisited.step {ord : HashOrder} {fuel : ℕ} (hrec : Computes D st ord fuel)
    {done : List ℕ} (h : Revisited D st k M M₁ done M₂) (hfuel : (unmarkedPairs D M₁).card < fuel)
    (n d : ℕ) :
    ∃ M₃ n₃, (if ((st.setMarkings M₂ n).clause d).satisfiable = false ∧
        ((st.setMarkings M₂ n).clause d).conclusion ≠ (st.clause k).conclusion then
        computeMarking ord fuel d (st.setMarkings M₂ n) else some (st.setMarkings M₂ n)) =
          some (st.setMarkings M₃ n₃) ∧
      Revisited D st k M M₁ (done ++ [d]) M₃ := by
  by_cases hd : ((st.setMarkings M₂ n).clause d).satisfiable = false ∧
      ((st.setMarkings M₂ n).clause d).conclusion ≠ (st.clause k).conclusion
  · rw [if_pos hd]
    have hcard := Finset.card_le_card (unmarkedPairs_subset (D := D) h.grows)
    obtain ⟨M₃, n₃, hrun, hext, hown⟩ := hrec M₂ n d h.justified hd.1 (hcard.trans_lt hfuel)
    refine ⟨M₃, n₃, hrun, fun w m hm => hext.grows w m (h.grows w m hm), hext.justified, ?_⟩
    intro j hj hor hguard
    by_cases hjd : j = d
    · rw [hjd]
      exact hown
    · refine hext.closed j hj (h.closed j hj hor fun hv hne => ?_)
      simpa [hjd] using hguard hv hne
  · rw [if_neg hd]
    refine ⟨M₂, n, rfl, h.grows, h.justified, fun j hj hor hguard => ?_⟩
    refine h.closed j hj hor fun hv hne => ?_
    have hjd : j ≠ d := by
      rintro rfl
      exact hd ⟨hj, hne⟩
    simpa [hjd] using hguard hv hne

/-- The run on a live clause whose conclusion is not among its other premises: insertions, and
    a second loop when the flag `b` says that one of them was new. -/
theorem computeMarking_eq (ord : HashOrder) (fuel n : ℕ)
    (hprem : (st.clause k).premises = master :: rest) (hv : (st.clause k).conclusion ∉ rest) :
    ∃ M₁ b, Inserted st k master rest M M₁ ∧
      (b = true ↔ ∃ m ∈ M master, m ∉ M (st.clause k).conclusion ∧
        m ∈ M₁ (st.clause k).conclusion) ∧
      computeMarking ord (fuel + 1) k (st.setMarkings M n) =
        if b = true then
          (ord.clauses (n + 1) (st.clausesOf (st.clause k).conclusion)).foldlM
            (fun s d => if (s.clause d).satisfiable = false ∧
              (s.clause d).conclusion ≠ (st.clause k).conclusion then
                computeMarking ord fuel d s else some s) (st.setMarkings M₁ (n + 2))
        else some (st.setMarkings M₁ (n + 1)) := by
  obtain ⟨M₁, hst, hins⟩ := markConclusion_foldl hv (ord.points n (M master))
    ((st.setMarkings M n).tick) false
  refine ⟨M₁, ((ord.points n (M master)).foldl (markConclusion rest (st.clause k).conclusion)
    ((st.setMarkings M n).tick, false)).2, ⟨hprem, hins.other, fun m => ?_⟩, ?_, ?_⟩
  · rw [hins.conclusion m, HashOrder.mem_points]
    rfl
  · rw [hins.flag]
    simp only [Bool.false_eq_true, false_or, HashOrder.mem_points]
    rfl
  · rw [computeMarking]
    simp only [clause_setMarkings, hprem]
    rw [show ((st.setMarkings M n).mem master).listOfMarking = M master from rfl,
      show (st.setMarkings M n).clock = n from rfl, hst]
    rfl

/-- The second loop of `compute_marking`. -/
theorem Inserted.revisit {ord : HashOrder} {fuel : ℕ} (hrec : Computes D st ord fuel)
    (h : Inserted st k master rest M M₁) (hst : Markable D st) (hJ : Justified D st M)
    (hk : st.Live k) (hfuel : (unmarkedPairs D M₁).card < fuel) (n n₁ : ℕ) :
    ∃ M' n', (ord.clauses n (st.clausesOf (st.clause k).conclusion)).foldlM
        (fun s d => if (s.clause d).satisfiable = false ∧
          (s.clause d).conclusion ≠ (st.clause k).conclusion then
            computeMarking ord fuel d s else some s) (st.setMarkings M₁ n₁) =
          some (st.setMarkings M' n') ∧
      Extends D st M M' ∧ Closed M' (st.clause k) := by
  obtain ⟨s', hs', M', n', rfl, hrev⟩ := Loop.foldlM_spec
    (l := ord.clauses n (st.clausesOf (st.clause k).conclusion))
    (f := fun s d => if (s.clause d).satisfiable = false ∧
      (s.clause d).conclusion ≠ (st.clause k).conclusion then
        computeMarking ord fuel d s else some s)
    (I := fun done s => ∃ M₂ n₂, s = st.setMarkings M₂ n₂ ∧ Revisited D st k M M₁ done M₂)
    (s := st.setMarkings M₁ n₁) (by
      intro done d ds s _ hI
      obtain ⟨M₂, n₂, rfl, hrev⟩ := hI
      obtain ⟨M₃, n₃, hrun, hrev'⟩ := hrev.step hrec hfuel n₂ d
      exact ⟨_, hrun, M₃, n₃, rfl, hrev'⟩)
    ⟨M₁, n₁, rfl, h.revisited hJ hk⟩
  refine ⟨M', n', hs', hrev.extends h hk fun j hj hv => ?_⟩
  rw [HashOrder.mem_clauses]
  exact ((hst j hj).2.1 _ hv).2

end marked

/-- `compute_marking` on a live clause. -/
theorem computeMarking_spec {D : List Ptr} {st : SolverState} (ord : HashOrder)
    (hst : Markable D st) (fuel : ℕ) : Computes D st ord fuel := by
  induction fuel with
  | zero => intro M n k _ _ h; omega
  | succ fuel ih =>
    intro M n k hJ hk hfuel
    obtain ⟨hne, hprems, hconcl⟩ := hst k hk
    obtain ⟨master, rest, hprem⟩ := List.exists_cons_of_ne_nil hne
    by_cases hv : (st.clause k).conclusion ∈ rest
    · -- the conclusion is a premise: nothing is inserted
      refine ⟨M, n + 1, ?_, .refl hJ, closed_of_conclusion_mem (by rw [hprem]; simp [hv])⟩
      set v := (st.clause k).conclusion with hvdef
      unfold computeMarking
      simp only [clause_setMarkings, hprem, ← hvdef]
      rw [markConclusion_foldl_of_mem hv]
      rfl
    · obtain ⟨M₁, b, hM, hb, hrun⟩ := computeMarking_eq (M := M) ord fuel n hprem hv
      rw [hrun]
      by_cases hprop : b = true
      · rw [if_pos hprop]
        -- a new marking makes the measure shrink
        obtain ⟨m, hml, hmv, hmv'⟩ := hb.mp hprop
        have hcard := unmarkedPairs_card_lt hM.grows (hJ master m hml).1 hconcl hmv hmv'
        exact hM.revisit ih hst hJ hk (by omega) (n + 1) (n + 2)
      · rw [if_neg hprop]
        refine ⟨M₁, n + 1, rfl, hM.extends hJ hk fun m hm => ?_, hM.closed (.inl rfl) fun _ => rfl⟩
        by_contra hmv
        refine hprop (hb.mpr ⟨m, ?_, hmv, hm⟩)
        exact (((hM.conclusion m).mp hm).resolve_left hmv).1

/-! ## All clauses -/

theorem computeCurrentMarking_spec {D : List Ptr} {st : SolverState} (ord : HashOrder)
    (hst : Markable D st) (hJ : Justified D st st.marking) {fuel : ℕ}
    (hfuel : D.length * (D.length + 1) < fuel) :
    ∃ M n, computeCurrentMarking ord fuel st = some (st.setMarkings M n) ∧
      Extends D st st.marking M ∧ ∀ k, st.Live k → Closed M (st.clause k) := by
  obtain ⟨s', hs', M, n, rfl, hext, hcl⟩ := Loop.foldlM_spec
    (l := List.range st.copyOfHornConstraints.length)
    (f := fun s k => if (s.clause k).satisfiable = false then computeMarking ord fuel k s
      else some s)
    (I := fun done s => ∃ M n, s = st.setMarkings M n ∧ Extends D st st.marking M ∧
      ∀ k ∈ done, st.Live k → Closed M (st.clause k))
    (s := st) (by
      intro done k rest s _ hI
      obtain ⟨M, n, rfl, hext, hcl⟩ := hI
      by_cases hk : ((st.setMarkings M n).clause k).satisfiable = false
      · rw [if_pos hk]
        obtain ⟨M', n', hrun, hext', hown⟩ := computeMarking_spec ord hst fuel M n k
          hext.justified hk ((unmarkedPairs_card_le D M).trans_lt hfuel)
        refine ⟨_, hrun, M', n', rfl, hext.trans hext', ?_⟩
        intro j hj hlive
        rcases List.mem_append.mp hj with hj | hj
        · exact hext'.closed j hlive (hcl j hj hlive)
        · rw [List.mem_singleton.mp hj]; exact hown
      · rw [if_neg hk]
        refine ⟨_, rfl, M, n, rfl, hext, ?_⟩
        intro j hj hlive
        rcases List.mem_append.mp hj with hj | hj
        · exact hcl j hj hlive
        · rw [List.mem_singleton.mp hj] at hlive
          exact absurd hlive hk)
    ⟨st.marking, st.clock, rfl, .refl hJ, by simp⟩
  exact ⟨M, n, hs', hext, fun k hk => hcl k (List.mem_range.mpr hk.lt) hk⟩

/-- The markings on which the solver starts: every point marks itself. -/
def SelfMarked (D : List Ptr) (st : SolverState) : Prop :=
  (∀ x ∈ D, st.marking x = [x]) ∧ ∀ x, x ∉ D → st.marking x = []

theorem SelfMarked.justified {D : List Ptr} {st : SolverState} (h : SelfMarked D st) :
    Justified D st st.marking := by
  intro v m hm
  by_cases hv : v ∈ D
  · rw [h.1 v hv, List.mem_singleton] at hm
    subst hm
    exact ⟨hv, .base rfl⟩
  · rw [h.2 v hv] at hm
    simp at hm

/-- The markings computed are exactly the derivations from a single point. -/
theorem computeCurrentMarking_exact {D : List Ptr} {st : SolverState} (ord : HashOrder)
    (hst : Markable D st) (hself : SelfMarked D st) {fuel : ℕ}
    (hfuel : D.length * (D.length + 1) < fuel) :
    ∃ M n, computeCurrentMarking ord fuel st = some (st.setMarkings M n) ∧
      ∀ m v, m ∈ M v ↔ m ∈ D ∧ Derives st.Rules (· = m) v := by
  obtain ⟨M, n, hrun, hext, hcl⟩ :=
    computeCurrentMarking_spec ord hst hself.justified hfuel
  refine ⟨M, n, hrun, fun m v => ⟨hext.justified v m, ?_⟩⟩
  intro ⟨hm, hd⟩
  induction hd with
  | base h =>
    subst h
    exact hext.grows _ _ (by rw [hself.1 _ hm]; simp)
  | rule hr _ ih =>
    obtain ⟨k, hk, rfl⟩ := hr
    exact hcl k hk m ih

end HiceDt.Solver
