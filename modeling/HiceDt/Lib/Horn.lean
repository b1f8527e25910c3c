import Mathlib.Data.List.Basic
import Mathlib.Logic.Basic

/-!
# Definite Horn rules

Rules `premises ⟹ conclusion` over an arbitrary type of atoms, Boolean
valuations of the atoms, and derivability from a set of atoms. An integrity
constraint (a rule without conclusion) is a rule whose conclusion is an atom
that no valuation under consideration makes true.

Results:

* `Derives.true_of_holds`: a valuation that satisfies the rules and contains
  the axioms contains every derivable atom.
* `meet_eq_true`, `meet_eq_false`: the intersection of a family of valuations.
* `exists_valuation`, `exists_valuation_true`: the two valuations that exist
  once propagation has reached a fixpoint: every undecided atom may be false,
  and an undecided atom that derives no false atom may be true.
-/

namespace HiceDt.Horn

variable {α : Type*}

/-- A definite rule: if every premise holds, so does the conclusion. -/
structure Rule (α : Type*) where
  premises : List α
  conclusion : α

/-- The valuation `ν` satisfies the rule `r`. -/
def Rule.Holds (ν : α → Bool) (r : Rule α) : Prop :=
  (∀ p ∈ r.premises, ν p = true) → ν r.conclusion = true

/-- `Derives R S x`: the atom `x` is derivable from the atoms in `S` with the
    rules in `R`. -/
inductive Derives (R : Rule α → Prop) (S : α → Prop) : α → Prop
  | base {x : α} : S x → Derives R S x
  | rule {r : Rule α} : R r → (∀ p ∈ r.premises, Derives R S p) → Derives R S r.conclusion

theorem Derives.true_of_holds {R : Rule α → Prop} {S : α → Prop} {ν : α → Bool}
    (hR : ∀ r, R r → r.Holds ν) (hS : ∀ x, S x → ν x = true) {x : α} (h : Derives R S x) :
    ν x = true := by
  induction h with
  | base hx => exact hS _ hx
  | rule hr _ ih => exact hR _ hr ih

theorem Derives.mono {R R' : Rule α → Prop} {S S' : α → Prop} (hR : ∀ r, R r → R' r)
    (hS : ∀ x, S x → S' x) {x : α} (h : Derives R S x) : Derives R' S' x := by
  induction h with
  | base hx => exact .base (hS _ hx)
  | rule hr _ ih => exact .rule (hR _ hr) ih

/-- What is derivable from one atom is that atom, or the atom is a premise of a
    rule. -/
theorem Derives.eq_or_premise {R : Rule α → Prop} (hR : ∀ r, R r → r.premises ≠ []) {m x : α}
    (h : Derives R (· = m) x) : x = m ∨ ∃ r, R r ∧ m ∈ r.premises := by
  induction h with
  | base hx => exact .inl hx
  | @rule r hr _ ih =>
    obtain ⟨p, ps, hps⟩ := List.exists_cons_of_ne_nil (hR r hr)
    have hp : p ∈ r.premises := by rw [hps]; simp
    rcases ih p hp with rfl | h
    · exact .inr ⟨r, hr, hp⟩
    · exact .inr h

open Classical in
/-- The intersection of all valuations in `M`. -/
noncomputable def meet (M : (α → Bool) → Prop) (x : α) : Bool :=
  decide (∀ ν, M ν → ν x = true)

theorem meet_eq_true {M : (α → Bool) → Prop} {x : α} :
    meet M x = true ↔ ∀ ν, M ν → ν x = true := by
  simp [meet]

theorem meet_eq_false {M : (α → Bool) → Prop} {x : α} :
    meet M x = false ↔ ∃ ν, M ν ∧ ν x = false := by
  simp [meet]

section Fixpoint

/-! ## Valuations at a propagation fixpoint

`T` and `F` are the atoms already decided true and false, `R` the rules that are
not yet satisfied. -/

variable {R : Rule α → Prop} {T F : α → Prop}

open Classical in
/-- If every open rule has a premise that is not decided true, every undecided
    atom may be false. -/
theorem exists_valuation (hTF : ∀ x, T x → ¬ F x)
    (hR : ∀ r, R r → ∃ p ∈ r.premises, ¬ T p) :
    ∃ ν : α → Bool, (∀ x, T x → ν x = true) ∧ (∀ x, ¬ T x → ν x = false) ∧
      (∀ x, F x → ν x = false) ∧ ∀ r, R r → r.Holds ν := by
  refine ⟨fun x => decide (T x), by simp, by simp, ?_, ?_⟩
  · intro x hx
    simpa using fun h => hTF x h hx
  · intro r hr hp
    obtain ⟨p, hpr, hpT⟩ := hR r hr
    exact absurd (by simpa using hp p hpr) hpT

open Classical in
/-- If no open rule has a premise that is decided true, an atom from which no
    false atom is derivable may be true. -/
theorem exists_valuation_true (hTF : ∀ x, T x → ¬ F x)
    (hR : ∀ r, R r → ∀ p ∈ r.premises, ¬ T p) {x : α}
    (hx : ∀ f, F f → ¬ Derives R (· = x) f) :
    ∃ ν : α → Bool, ν x = true ∧ (∀ y, T y → ν y = true) ∧ (∀ y, F y → ν y = false) ∧
      ∀ r, R r → r.Holds ν := by
  refine ⟨fun y => decide (T y ∨ Derives R (· = x) y), ?_, ?_, ?_, ?_⟩
  · have hxx : Derives R (· = x) x := .base rfl
    simp [hxx]
  · intro y hy
    simp [hy]
  · intro y hy
    simpa using ⟨fun h => hTF y h hy, hx y hy⟩
  · intro r hr hp
    have hd : ∀ p ∈ r.premises, Derives R (· = x) p := by
      intro p hpr
      have := hp p hpr
      simp only [decide_eq_true_eq] at this
      exact this.resolve_left (hR r hr p hpr)
    simpa using Or.inr (Derives.rule hr hd)

end Fixpoint

end HiceDt.Horn
