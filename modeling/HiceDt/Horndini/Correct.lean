import Mathlib.Data.List.Forall2
import Mathlib.Data.List.GetD
import HiceDt.Lib.Loop
import HiceDt.Solver.Backup
import HiceDt.Horndini.Model

/-!
# Correctness of Horndini

The loop only removes predicates that no consistent tuple of conjunctions contains,
and it stops when nothing forces a further removal. The premises and constraints
that it erases on the way stay satisfied because conjunctions only get weaker.

Results:

* `knockOff_spec`: what a positive data point removes.
* `hornPhase_spec`: what the loop over the constraints erases.
* `learn_strongest`: the loop ends with the strongest consistent tuple, if there is
  one.
-/

namespace HiceDt.Horndini

open HiceDt Solver Loop

variable {m : Heap} {D : List Ptr} {hcs : List HornConstraint} {X Y : List (List ℕ)} {d : Datapoint}

/-! ## Tuples of conjunctions -/

/-- Each conjunction is a sub-list of the other one. -/
def Sub (X Y : List (List ℕ)) : Prop := List.Forall₂ List.Sublist X Y

/-- The data point satisfies the conjunction of its category. -/
def holdsAt (X : List (List ℕ)) (d : Datapoint) : Bool := satisfies d (X.getD (d.category 0) [])

theorem Sub.refl (X : List (List ℕ)) : Sub X X :=
  List.forall₂_same.mpr fun _ _ => .refl _

theorem Sub.trans {Z : List (List ℕ)} (h : Sub X Y) (h' : Sub Y Z) : Sub X Z := by
  induction h generalizing Z with
  | nil => exact h'
  | cons hab _ ih =>
    obtain ⟨c, l, hbc, hl, rfl⟩ := List.forall₂_cons_left_iff.mp h'
    exact .cons (hab.trans hbc) (ih hl)

theorem Sub.getD (h : Sub X Y) (i : ℕ) : (X.getD i []).Sublist (Y.getD i []) := by
  induction h generalizing i with
  | nil => exact .refl _
  | cons hab _ ih =>
    match i with
    | 0 => exact hab
    | i + 1 => exact ih i

theorem Sub.length_le (h : Sub X Y) : X.flatten.length ≤ Y.flatten.length := by
  induction h with
  | nil => exact le_rfl
  | cons hab _ ih =>
    have := hab.length_le
    rw [List.flatten_cons, List.flatten_cons, List.length_append, List.length_append]
    omega

/-- A stronger tuple has more predicates. -/
theorem Sub.eq_of_length (h : Sub X Y) (hlen : Y.flatten.length ≤ X.flatten.length) : X = Y := by
  induction h with
  | nil => rfl
  | @cons a b X Y hab hrest ih =>
    have hle := hab.length_le
    have hle' := Sub.length_le hrest
    rw [List.flatten_cons, List.flatten_cons, List.length_append, List.length_append] at hlen
    rw [hab.eq_of_length (by omega), ih (by omega)]

/-- A weaker tuple holds at more data points. -/
theorem Sub.holdsAt (h : Sub X Y) (hY : holdsAt Y d = true) : holdsAt X d = true := by
  unfold Horndini.holdsAt satisfies at hY ⊢
  rw [List.all_eq_true] at hY ⊢
  exact fun c hc => hY c ((h.getD _).subset hc)

theorem conjunctionOf_eq {X : List (List ℕ)} (hlt : d.category 0 < X.length) :
    conjunctionOf X d = .ok (X.getD (d.category 0) []) := by
  rw [conjunctionOf, List.getElem?_eq_getElem hlt, List.getD_eq_getElem _ _ hlt]

/-! ## One positive data point -/

theorem Sub.set_right (h : Sub X Y) {i : ℕ} {c : List ℕ} (hc : (X.getD i []).Sublist c) :
    Sub X (Y.set i c) := by
  induction h generalizing i with
  | nil => exact .nil
  | cons hab hl ih =>
    match i with
    | 0 => exact .cons hc hl
    | i + 1 => exact .cons hab (ih hc)

theorem Sub.set_left (h : Sub X Y) {i : ℕ} {c : List ℕ} (hc : c.Sublist (X.getD i [])) :
    Sub (X.set i c) Y := by
  induction h generalizing i with
  | nil => exact .nil
  | cons hab hl ih =>
    match i with
    | 0 => exact .cons (hc.trans hab) hl
    | i + 1 => exact .cons hab (ih hc)

/-- Knocking off yields the strongest weaker tuple that holds at the data point. -/
theorem knockOff_spec {x : Ptr} (hlt : (m x).category 0 < X.length) :
    ∃ X', knockOff m X x = .ok X' ∧ X'.length = X.length ∧ Sub X' X ∧ holdsAt X' (m x) = true ∧
      ∀ Z, Sub Z X → holdsAt Z (m x) = true → Sub Z X' := by
  set c := X.getD ((m x).category 0) [] with hc
  refine ⟨X.set ((m x).category 0) (c.filter fun p => (m x).int p ≠ 0), ?_, List.length_set,
    (Sub.refl X).set_left List.filter_sublist, ?_, fun Z hZ hhold => hZ.set_right ?_⟩
  · rw [knockOff, conjunctionOf_eq hlt]
    rfl
  · unfold holdsAt satisfies
    rw [List.getD_eq_getElem _ _ (by rw [List.length_set]; exact hlt), List.getElem_set_self]
    simp
  · unfold holdsAt satisfies at hhold
    rw [← List.filter_eq_self.mpr (List.all_eq_true.mp hhold)]
    exact (hZ.getD _).filter _

/-- All positive data points of a round. -/
theorem foldlM_knockOff {positive : List Ptr} (hcat : ∀ x ∈ positive, (m x).category 0 < X.length) :
    ∃ X', positive.foldlM (knockOff m) X = .ok X' ∧ X'.length = X.length ∧ Sub X' X ∧
      (∀ x ∈ positive, holdsAt X' (m x) = true) ∧
      ∀ Z, Sub Z X → (∀ x ∈ positive, holdsAt Z (m x) = true) → Sub Z X' := by
  refine foldlM_returns (f := knockOff m) (l := positive) (s := X)
    (I := fun done X' => X'.length = X.length ∧ Sub X' X ∧ (∀ x ∈ done, holdsAt X' (m x) = true) ∧
      ∀ Z, Sub Z X → (∀ x ∈ positive, holdsAt Z (m x) = true) → Sub Z X') ?_
    ⟨rfl, .refl X, by simp, fun Z hZ _ => hZ⟩
  intro done x rest X' hl _ ⟨hlen, hsub, hhold, hmax⟩
  have hx : x ∈ positive := by
    rw [hl]
    simp
  obtain ⟨X'', hrun, hlen', hsub', hx', hmax'⟩ := knockOff_spec (X := X') (m := m) (x := x)
    (by rw [hlen]; exact hcat x hx)
  refine ⟨X'', hrun, hlen'.trans hlen, hsub'.trans hsub, fun y hy => ?_, fun Z hZ hall => ?_⟩
  · rcases List.mem_append.mp hy with hy | hy
    · exact hsub'.holdsAt (hhold y hy)
    · rw [List.mem_singleton.mp hy]
      exact hx'
  · exact hmax' Z (hmax Z hZ hall) (hall x hx)

/-! ## The Horn constraints -/

theorem remainingPremises_eq : ∀ {premises : List Ptr},
    (∀ x ∈ premises, (m x).category 0 < X.length) →
      remainingPremises m X premises = .ok (premises.filter fun x => !holdsAt X (m x)) := by
  intro premises
  induction premises with
  | nil => exact fun _ => rfl
  | cons x premises ih =>
    intro hcat
    rw [remainingPremises, conjunctionOf_eq (hcat x List.mem_cons_self),
      ih fun y hy => hcat y (List.mem_cons_of_mem _ hy), List.filter_cons]
    simp only [bind, Except.bind]
    cases hx : holdsAt X (m x) with
    | true =>
      rw [if_pos (show satisfies (m x) _ = true from hx)]
      rfl
    | false =>
      rw [if_neg (by rw [show satisfies (m x) _ = false from hx]; simp)]
      rfl

/-- All premises of the constraint are satisfied. -/
def Fires (m : Heap) (X : List (List ℕ)) (hc : HornConstraint) : Prop :=
  ∀ p ∈ hc.premises, holdsAt X (m p) = true

/-- The constraint without the premises that are satisfied. -/
def shrink (m : Heap) (X : List (List ℕ)) (hc : HornConstraint) : HornConstraint :=
  { hc with premises := hc.premises.filter fun x => !holdsAt X (m x) }

theorem fires_iff {hc : HornConstraint} : Fires m X hc ↔ (shrink m X hc).premises = [] := by
  unfold Fires shrink
  rw [List.filter_eq_nil_iff]
  simp

/-- The loop over the constraints throws iff a constraint without conclusion fires;
    otherwise it erases the constraints that fire. -/
theorem hornPhase_spec : ∀ {hcs : List HornConstraint},
    (∀ hc ∈ hcs, ∀ x ∈ hc.premises, (m x).category 0 < X.length) →
      (hornPhase m X hcs = .error (.noConjunctionExistsException "No consistent conjunction exists")
        ∧ ∃ hc ∈ hcs, hc.conclusion = none ∧ Fires m X hc) ∨
      ∃ kept positive, hornPhase m X hcs = .ok (kept, positive) ∧
        kept.length + positive.length = hcs.length ∧
        (∀ hc ∈ hcs, Fires m X hc ∧ (∃ c ∈ positive, hc.conclusion = some c) ∨
          ¬ Fires m X hc ∧ shrink m X hc ∈ kept) ∧
        (∀ hc' ∈ kept, ∃ hc ∈ hcs, ¬ Fires m X hc ∧ hc' = shrink m X hc) ∧
        ∀ c ∈ positive, ∃ hc ∈ hcs, Fires m X hc ∧ hc.conclusion = some c := by
  intro hcs
  induction hcs with
  | nil => exact fun _ => .inr ⟨[], [], rfl, rfl, by simp, by simp, by simp⟩
  | cons hc hcs ih =>
    intro hcat
    have hprem := remainingPremises_eq (hcat hc List.mem_cons_self)
    have ih := ih fun hc' hmem => hcat hc' (List.mem_cons_of_mem _ hmem)
    by_cases hfire : Fires m X hc
    · have hempty : (hc.premises.filter fun x => !holdsAt X (m x)) = [] := fires_iff.mp hfire
      cases hconc : hc.conclusion with
      | none =>
        refine .inl ⟨?_, hc, List.mem_cons_self, hconc, hfire⟩
        rw [hornPhase, hprem, hempty, hconc]
        rfl
      | some c =>
        have hrun : hornPhase m X (hc :: hcs) = (hornPhase m X hcs).bind
            fun r => .ok (r.1, c :: r.2) := by
          rw [hornPhase, hprem, hempty, hconc]
          rfl
        rw [hrun]
        rcases ih with ⟨herr, hc', hmem, hbad⟩ | ⟨kept, positive, hok, hlen, hall, hkept, hpos⟩
        · refine .inl ⟨?_, hc', List.mem_cons_of_mem _ hmem, hbad⟩
          rw [herr]
          rfl
        · refine .inr ⟨kept, c :: positive, by rw [hok]; rfl, ?_, fun hc' hmem => ?_,
            fun hc' hmem => ?_, fun c' hmem => ?_⟩
          · simp only [List.length_cons]
            omega
          · rcases List.mem_cons.mp hmem with rfl | hmem
            · exact .inl ⟨hfire, c, List.mem_cons_self, hconc⟩
            · refine (hall hc' hmem).imp_left fun ⟨hf, c', hc', heq⟩ => ⟨hf, c', ?_, heq⟩
              exact List.mem_cons_of_mem _ hc'
          · obtain ⟨hc₀, hmem₀, heq⟩ := hkept hc' hmem
            exact ⟨hc₀, List.mem_cons_of_mem _ hmem₀, heq⟩
          · rcases List.mem_cons.mp hmem with rfl | hmem
            · exact ⟨hc, List.mem_cons_self, hfire, hconc⟩
            · obtain ⟨hc₀, hmem₀, heq⟩ := hpos c' hmem
              exact ⟨hc₀, List.mem_cons_of_mem _ hmem₀, heq⟩
    · have hne : (hc.premises.filter fun x => !holdsAt X (m x)) ≠ [] :=
        fun h => hfire (fires_iff.mpr h)
      have hrun : hornPhase m X (hc :: hcs) = (hornPhase m X hcs).bind
          fun r => .ok (shrink m X hc :: r.1, r.2) := by
        rw [hornPhase, hprem]
        simp only [bind, Except.bind, List.isEmpty_eq_false_iff.mpr hne]
        rfl
      rw [hrun]
      rcases ih with ⟨herr, hc', hmem, hbad⟩ | ⟨kept, positive, hok, hlen, hall, hkept, hpos⟩
      · refine .inl ⟨?_, hc', List.mem_cons_of_mem _ hmem, hbad⟩
        rw [herr]
        rfl
      · refine .inr ⟨shrink m X hc :: kept, positive, by rw [hok]; rfl, ?_, fun hc' hmem => ?_,
          fun hc' hmem => ?_, fun c' hmem => ?_⟩
        · simp only [List.length_cons]
          omega
        · rcases List.mem_cons.mp hmem with rfl | hmem
          · exact .inr ⟨hfire, List.mem_cons_self⟩
          · exact (hall hc' hmem).imp_right fun h => ⟨h.1, List.mem_cons_of_mem _ h.2⟩
        · rcases List.mem_cons.mp hmem with rfl | hmem
          · exact ⟨hc, List.mem_cons_self, hfire, rfl⟩
          · obtain ⟨hc₀, hmem₀, heq⟩ := hkept hc' hmem
            exact ⟨hc₀, List.mem_cons_of_mem _ hmem₀, heq⟩
        · obtain ⟨hc₀, hmem₀, heq⟩ := hpos c' hmem
          exact ⟨hc₀, List.mem_cons_of_mem _ hmem₀, heq⟩

/-! ## The loop -/

/-- The tuple has predicates of the initial one only, and it is consistent with the
    sample. -/
structure Fits (m : Heap) (D : List Ptr) (hcs : List HornConstraint) (init X : List (List ℕ)) :
    Prop where
  sub : Sub X init
  consistent : Consistent m D hcs [] [] fun x => holdsAt X (m x)

/-- The constraint `hc'` is what is left of `hc`: the missing premises are
    satisfied. -/
structure Reduced (m : Heap) (X : List (List ℕ)) (hc hc' : HornConstraint) : Prop where
  conclusion : hc'.conclusion = hc.conclusion
  subset : hc'.premises ⊆ hc.premises
  satisfied : ∀ p ∈ hc.premises, p ∈ hc'.premises ∨ holdsAt X (m p) = true

theorem Reduced.weaken {hc hc' : HornConstraint} (h : Reduced m Y hc hc') (hsub : Sub X Y) :
    Reduced m X hc hc' :=
  ⟨h.conclusion, h.subset, fun p hp => (h.satisfied p hp).imp_right hsub.holdsAt⟩

theorem Reduced.shrink {hc hc' : HornConstraint} (h : Reduced m X hc hc') :
    Reduced m X hc (shrink m X hc') := by
  refine ⟨h.conclusion, fun p hp => h.subset (List.mem_filter.mp hp).1, fun p hp => ?_⟩
  cases hX : holdsAt X (m p) with
  | true => exact .inr rfl
  | false =>
    refine .inl (List.mem_filter.mpr ⟨?_, by rw [hX]; rfl⟩)
    exact (h.satisfied p hp).resolve_right (by rw [hX]; simp)

theorem Reduced.fires {hc hc' : HornConstraint} (h : Reduced m X hc hc') (hf : Fires m X hc') :
    Fires m X hc :=
  fun p hp => (h.satisfied p hp).elim (hf p) id

/-- The sample: the points have a conjunction, and the constraints are over the
    points. -/
structure SampleOk (m : Heap) (D : List Ptr) (hcs : List HornConstraint) (init : List (List ℕ)) :
    Prop where
  category : ∀ x ∈ D, (m x).category 0 < init.length
  premises : ∀ hc ∈ hcs, ∀ x ∈ hc.premises, x ∈ D
  conclusion : ∀ hc ∈ hcs, ∀ c, hc.conclusion = some c → c ∈ D

/-- The loop has removed only what every consistent tuple lacks, and it has erased
    only what is satisfied or about to be. -/
structure LoopInv (m : Heap) (D : List Ptr) (hcs : List HornConstraint) (init : List (List ℕ))
    (hcs' : List HornConstraint) (X : List (List ℕ)) (positive : List Ptr) : Prop where
  sub : Sub X init
  maximal : ∀ Z, Fits m D hcs init Z → Sub Z X
  positive_mem : ∀ x ∈ positive, x ∈ D
  forced : ∀ x ∈ positive, ∀ Z, Fits m D hcs init Z → holdsAt Z (m x) = true
  labelled : ∀ x ∈ D, label m x = some true → holdsAt X (m x) = true ∨ x ∈ positive
  kept : ∀ hc ∈ hcs, (∃ c, hc.conclusion = some c ∧ (holdsAt X (m c) = true ∨ c ∈ positive)) ∨
    ∃ hc' ∈ hcs', Reduced m X hc hc'
  origin : ∀ hc' ∈ hcs', ∃ hc ∈ hcs, Reduced m X hc hc'

variable {hcs' : List HornConstraint} {init : List (List ℕ)} {positive : List Ptr}

/-- The positive data points are processed. -/
theorem LoopInv.knockOff (h : LoopInv m D hcs init hcs' X positive)
    (hok : SampleOk m D hcs init) :
    ∃ X', positive.foldlM (knockOff m) X = .ok X' ∧ LoopInv m D hcs init hcs' X' [] := by
  obtain ⟨X', hrun, -, hsub, hpos, hmax⟩ := foldlM_knockOff (m := m) (X := X) fun x hx => by
    rw [h.sub.length_eq]
    exact hok.category x (h.positive_mem x hx)
  refine ⟨X', hrun, hsub.trans h.sub, fun Z hZ => ?_, by simp, by simp, fun x hx hl => ?_,
    fun hc hhc => ?_, fun hc' hhc' => ?_⟩
  · exact hmax Z (h.maximal Z hZ) fun x hx => h.forced x hx Z hZ
  · exact .inl ((h.labelled x hx hl).elim hsub.holdsAt (hpos x))
  · rcases h.kept hc hhc with ⟨c, hc', hX | hc''⟩ | ⟨hc', hmem, hred⟩
    · exact .inl ⟨c, hc', .inl (hsub.holdsAt hX)⟩
    · exact .inl ⟨c, hc', .inl (hpos c hc'')⟩
    · exact .inr ⟨hc', hmem, hred.weaken hsub⟩
  · obtain ⟨hc, hmem, hred⟩ := h.origin hc' hhc'
    exact ⟨hc, hmem, hred.weaken hsub⟩

/-- If a constraint without conclusion fires, there is no consistent tuple. -/
theorem LoopInv.not_fits (h : LoopInv m D hcs init hcs' X []) {hc' : HornConstraint}
    (hmem : hc' ∈ hcs') (hnone : hc'.conclusion = none) (hf : Fires m X hc') :
    ¬ ∃ Z, Fits m D hcs init Z := by
  rintro ⟨Z, hZ⟩
  obtain ⟨hc, hhc, hred⟩ := h.origin hc' hmem
  have hprem : ∀ p ∈ hc.premises, holdsAt Z (m p) = true :=
    fun p hp => (h.maximal Z hZ).holdsAt (hred.fires hf p hp)
  obtain ⟨c, hc, -⟩ := hZ.consistent.2.2.2 hc hhc hprem
  rw [← hred.conclusion, hnone] at hc
  simp at hc

/-- The constraints are processed. -/
theorem LoopInv.hornPhase (h : LoopInv m D hcs init hcs' X []) (hok : SampleOk m D hcs init) :
    (Horndini.hornPhase m X hcs' =
        .error (.noConjunctionExistsException "No consistent conjunction exists") ∧
      ¬ ∃ Z, Fits m D hcs init Z) ∨
    ∃ kept positive, Horndini.hornPhase m X hcs' = .ok (kept, positive) ∧
      kept.length + positive.length = hcs'.length ∧ LoopInv m D hcs init kept X positive ∧
      ∀ hc' ∈ kept, ¬ Fires m X hc' := by
  have hcat : ∀ hc' ∈ hcs', ∀ x ∈ hc'.premises, (m x).category 0 < X.length := by
    intro hc' hmem x hx
    obtain ⟨hc, hhc, hred⟩ := h.origin hc' hmem
    rw [h.sub.length_eq]
    exact hok.category x (hok.premises hc hhc x (hred.subset hx))
  rcases hornPhase_spec hcat with ⟨herr, hc', hmem, hnone, hf⟩ |
    ⟨kept, positive, hrun, hlen, hall, hkept, hpos⟩
  · exact .inl ⟨herr, h.not_fits hmem hnone hf⟩
  refine .inr ⟨kept, positive, hrun, hlen, ⟨h.sub, h.maximal, fun x hx => ?_, fun x hx Z hZ => ?_,
    fun x hx hl => ?_, fun hc hhc => ?_, fun hc' hmem => ?_⟩, fun hc' hmem hf => ?_⟩
  · obtain ⟨hc', hmem, -, hconc⟩ := hpos x hx
    obtain ⟨hc, hhc, hred⟩ := h.origin hc' hmem
    exact hok.conclusion hc hhc x (hred.conclusion ▸ hconc)
  · obtain ⟨hc', hmem, hf, hconc⟩ := hpos x hx
    obtain ⟨hc, hhc, hred⟩ := h.origin hc' hmem
    have hprem : ∀ p ∈ hc.premises, holdsAt Z (m p) = true :=
      fun p hp => (h.maximal Z hZ).holdsAt (hred.fires hf p hp)
    obtain ⟨c, hc, hν⟩ := hZ.consistent.2.2.2 hc hhc hprem
    rw [← hred.conclusion, hconc] at hc
    rw [Option.some.inj hc]
    exact hν
  · exact .inl ((h.labelled x hx hl).resolve_right (by simp))
  · rcases h.kept hc hhc with ⟨c, hconc, hX⟩ | ⟨hc', hmem, hred⟩
    · exact .inl ⟨c, hconc, .inl (hX.resolve_right (by simp))⟩
    · rcases hall hc' hmem with ⟨-, c, hc, hconc⟩ | ⟨-, hkeep⟩
      · exact .inl ⟨c, hred.conclusion ▸ hconc, .inr hc⟩
      · exact .inr ⟨_, hkeep, hred.shrink⟩
  · obtain ⟨hc₀, hmem₀, -, rfl⟩ := hkept hc' hmem
    obtain ⟨hc, hhc, hred⟩ := h.origin hc₀ hmem₀
    exact ⟨hc, hhc, hred.shrink⟩
  · obtain ⟨hc₀, -, hnot, rfl⟩ := hkept hc' hmem
    refine hnot (fires_iff.mpr (List.eq_nil_iff_forall_not_mem.mpr fun p hp => ?_))
    have hX := (List.mem_filter.mp hp).2
    rw [hf p hp] at hX
    simp at hX

/-- When no constraint fires, the tuple is consistent, unless there is no consistent
    tuple. -/
theorem LoopInv.fits (h : LoopInv m D hcs init hcs' X []) (hno : ∀ hc' ∈ hcs', ¬ Fires m X hc')
    (hex : ∃ Z, Fits m D hcs init Z) : Fits m D hcs init X := by
  obtain ⟨Z, hZ⟩ := hex
  refine ⟨h.sub, fun x hx b hb => ?_, by simp, by simp, fun hc hhc hprem => ?_⟩
  · cases b with
    | true => exact (h.labelled x hx hb).resolve_right (by simp)
    | false =>
      by_contra hX
      have hZx : holdsAt Z (m x) = true := (h.maximal Z hZ).holdsAt (by simpa using hX)
      have hZf : holdsAt Z (m x) = false := hZ.consistent.1 x hx false hb
      rw [hZf] at hZx
      simp at hZx
  · rcases h.kept hc hhc with ⟨c, hconc, hX⟩ | ⟨hc', hmem, hred⟩
    · exact ⟨c, hconc, hX.resolve_right (by simp)⟩
    · exact absurd (fun p hp => hprem p (hred.subset hp)) (hno hc' hmem)

/-- The outcome of the loop. -/
theorem learnLoop_spec (hok : SampleOk m D hcs init) : ∀ (fuel : ℕ) (hcs' : List HornConstraint)
    (X : List (List ℕ)) (positive : List Ptr), LoopInv m D hcs init hcs' X positive →
      hcs'.length < fuel →
      (learnLoop m fuel hcs' X positive =
          .error (.noConjunctionExistsException "No consistent conjunction exists") ∧
        ¬ ∃ Z, Fits m D hcs init Z) ∨
      ∃ kept r, learnLoop m fuel hcs' X positive = .ok (kept, r) ∧
        LoopInv m D hcs init kept r [] ∧ ∀ hc' ∈ kept, ¬ Fires m r hc' := by
  intro fuel
  induction fuel with
  | zero =>
    intro hcs' X positive _ hlt
    omega
  | succ fuel ih =>
    intro hcs' X positive h hlt
    obtain ⟨X', hknock, hinv⟩ := h.knockOff hok
    rw [learnLoop, hknock]
    rcases hinv.hornPhase hok with ⟨herr, hno⟩ | ⟨kept, positive', hrun, hlen, hinv', hfires⟩
    · refine .inl ⟨?_, hno⟩
      simp only [bind, Except.bind, herr]
    · simp only [bind, Except.bind, hrun]
      by_cases hempty : positive' = []
      · subst hempty
        exact .inr ⟨kept, X', rfl, hinv', hfires⟩
      · rw [if_neg (by simpa using hempty)]
        have hpos := List.length_pos_iff.mpr hempty
        exact ih kept X' positive' hinv' (by omega)

/-- The start of the loop. -/
theorem LoopInv.start (m : Heap) (D : List Ptr) (hcs : List HornConstraint) (init : List (List ℕ)) :
    LoopInv m D hcs init hcs init (D.filter fun x =>
      (m x).isClassified && (m x).classification) := by
  have hlabel : ∀ x, ((m x).isClassified && (m x).classification) = true ↔
      label m x = some true := by
    intro x
    unfold label Datapoint.label
    cases (m x).isClassified <;> simp
  refine ⟨.refl _, fun Z hZ => hZ.sub, fun x hx => (List.mem_filter.mp hx).1,
    fun x hx Z hZ => ?_, fun x hx hl => .inr (List.mem_filter.mpr ⟨hx, (hlabel x).mpr hl⟩),
    fun hc hhc => .inr ⟨hc, hhc, rfl, List.Subset.refl _, fun p hp => .inl hp⟩,
    fun hc hhc => ⟨hc, hhc, rfl, List.Subset.refl _, fun p hp => .inl hp⟩⟩
  obtain ⟨hxD, hx⟩ := List.mem_filter.mp hx
  exact hZ.consistent.1 x hxD true ((hlabel x).mp hx)

/-- Horndini returns the strongest tuple of conjunctions that is consistent with the
    sample, if there is a consistent one; it throws only if there is none. -/
theorem learn_strongest (m : Heap) (D : List Ptr) (hcs : List HornConstraint)
    (init : List (List ℕ)) (hok : SampleOk m D hcs init) (fuel : ℕ) (hfuel : hcs.length < fuel) :
    ((∃ Z, Fits m D hcs init Z) → ∃ kept r, learn m D hcs init fuel = .ok (kept, r) ∧
      Fits m D hcs init r ∧ ∀ Z, Fits m D hcs init Z → Sub Z r) ∧
    (∀ e, learn m D hcs init fuel = .error e →
      e = .noConjunctionExistsException "No consistent conjunction exists" ∧
        ¬ ∃ Z, Fits m D hcs init Z) := by
  rcases learnLoop_spec hok fuel hcs init _ (.start m D hcs init) hfuel with ⟨herr, hno⟩ |
    ⟨kept, r, hrun, hinv, hfires⟩
  · refine ⟨fun hex => absurd hex hno, fun e he => ?_⟩
    rw [learn, herr] at he
    exact ⟨(Except.error.inj he).symm, hno⟩
  · refine ⟨fun hex => ⟨kept, r, hrun, hinv.fits hfires hex, hinv.maximal⟩, fun e he => ?_⟩
    rw [learn, hrun] at he
    simp at he

/-- Horndini throws, or it returns conjunctions of the given predicates. -/
theorem learn_cases (hok : SampleOk m D hcs init) {fuel : ℕ} (hfuel : hcs.length < fuel) :
    learn m D hcs init fuel =
        .error (.noConjunctionExistsException "No consistent conjunction exists") ∨
      ∃ kept r, learn m D hcs init fuel = .ok (kept, r) ∧ Sub r init := by
  rcases learnLoop_spec hok fuel hcs init _ (.start m D hcs init) hfuel with ⟨herr, -⟩ |
    ⟨kept, r, hrun, hinv, -⟩
  · exact .inl herr
  · exact .inr ⟨kept, r, hrun, hinv.sub⟩

/-! ## A sample -/

/-- A positive point, a point that it implies, and a negative point. -/
def chain : Heap
  | .point 0 =>
    { categoricalData := [0], intData := [1, 1, 0], isClassified := true, classification := true }
  | .point 1 => { categoricalData := [0], intData := [1, 0, 1] }
  | _ =>
    { categoricalData := [0], intData := [0, 1, 1], isClassified := true, classification := false }

theorem chain_fits :
    Fits chain [.point 0, .point 1, .point 2] [⟨[.point 0], some (.point 1), false⟩] [[0, 1, 2]]
      [[0]] := by
  refine ⟨.cons (by decide) .nil, ?_, by simp, by simp, ?_⟩
  · simp [chain, label, Datapoint.label, holdsAt, satisfies, Datapoint.category, Datapoint.int]
  · simp [HornConstraint.Holds, chain, holdsAt, satisfies, Datapoint.category, Datapoint.int]

/-- Horndini keeps the first predicate. -/
theorem learn_strongest_chain : ∃ kept r,
    learn chain [.point 0, .point 1, .point 2] [⟨[.point 0], some (.point 1), false⟩] [[0, 1, 2]]
      2 =
      .ok (kept, r) ∧
    Fits chain [.point 0, .point 1, .point 2] [⟨[.point 0], some (.point 1), false⟩] [[0, 1, 2]] r ∧
    Sub [[0]] r := by
  have hok : SampleOk chain [.point 0, .point 1, .point 2]
      [⟨[.point 0], some (.point 1), false⟩] [[0, 1, 2]] := by
    refine ⟨?_, by simp, by simp⟩
    simp [chain, Datapoint.category]
  obtain ⟨kept, r, hrun, hfits, hmax⟩ := (learn_strongest chain _ _ _ hok 2 (by simp)).1
    ⟨[[0]], chain_fits⟩
  exact ⟨kept, r, hrun, hfits, hmax _ chain_fits⟩

end HiceDt.Horndini
