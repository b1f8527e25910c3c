import Mathlib.Data.Finset.Card
import Mathlib.Data.List.Nodup

/-!
# Learning from examples

A learner proposes hypotheses that satisfy the examples it has been given, and a teacher
answers each of them with new examples of which one is violated.

Results:

* `Session.refuted`: no hypothesis that satisfies the examples has been tried.
* `Session.nodup_next`, `Session.length_lt_card`: no hypothesis is tried twice, and a finite
  set of hypotheses bounds the number of rounds.
* `Session.length_le_measure`: so does a measure that decreases from one hypothesis to the
  next.
-/

namespace HiceDt.Ice

variable {H E : Type*} {sat : H → E → Prop} {pick : List E → H → Prop}

/-- The hypotheses that have been tried and the examples that the teacher has given; `pick`
    says which hypotheses the learner may propose for the examples. -/
inductive Session (sat : H → E → Prop) (pick : List E → H → Prop) : List H → List E → Prop
  | start : Session sat pick [] []
  | round {tried : List H} {examples : List E} {h : H} {answers : List E} :
    Session sat pick tried examples → pick examples h → (∃ e ∈ answers, ¬ sat h e) →
    Session sat pick (tried ++ [h]) (examples ++ answers)

/-- The learner proposes hypotheses that satisfy the examples. -/
def Consistent (sat : H → E → Prop) (pick : List E → H → Prop) : Prop :=
  ∀ examples h, pick examples h → ∀ e ∈ examples, sat h e

variable {tried : List H} {examples : List E}

/-- Every hypothesis that has been tried violates an example. -/
theorem Session.refuted (s : Session sat pick tried examples) :
    ∀ h ∈ tried, ∃ e ∈ examples, ¬ sat h e := by
  induction s with
  | start => simp
  | round _ _ hviolated ih =>
    intro h hh
    rcases List.mem_append.mp hh with hh | hh
    · obtain ⟨e, he, hno⟩ := ih h hh
      exact ⟨e, List.mem_append_left _ he, hno⟩
    · obtain ⟨e, he, hno⟩ := hviolated
      exact ⟨e, List.mem_append_right _ he, List.mem_singleton.mp hh ▸ hno⟩

theorem Session.not_mem (s : Session sat pick tried examples) {h : H}
    (hsat : ∀ e ∈ examples, sat h e) : h ∉ tried := by
  intro hmem
  obtain ⟨e, he, hno⟩ := s.refuted h hmem
  exact hno (hsat e he)

/-- The next hypothesis is a new one. -/
theorem Session.nodup_next (hpick : Consistent sat pick) (s : Session sat pick tried examples) :
    tried.Nodup ∧ ∀ h, pick examples h → (tried ++ [h]).Nodup := by
  have hnext : ∀ {tried : List H} {examples : List E}, Session sat pick tried examples →
      tried.Nodup → ∀ h, pick examples h → (tried ++ [h]).Nodup := by
    intro tried examples hs hnd h hh
    rw [← List.concat_eq_append]
    exact hnd.concat (hs.not_mem (hpick _ _ hh))
  induction s with
  | start => exact ⟨List.nodup_nil, hnext .start List.nodup_nil⟩
  | @round tried examples h answers hs hh hviolated ih =>
    have hnd := ih.2 h hh
    exact ⟨hnd, hnext (hs.round hh hviolated) hnd⟩

/-- A finite set of hypotheses has room for the next one. -/
theorem Session.length_lt_card (hpick : Consistent sat pick) (s : Session sat pick tried examples)
    {h : H} (hh : pick examples h) (space : Finset H) (hspace : ∀ x ∈ tried ++ [h], x ∈ space) :
    tried.length < space.card := by
  classical
  have hcard := Finset.card_le_card (s := (tried ++ [h]).toFinset) (t := space)
    fun x hx => hspace x (List.mem_toFinset.mp hx)
  rw [List.toFinset_card_of_nodup ((s.nodup_next hpick).2 h hh), List.length_append,
    List.length_singleton] at hcard
  omega

/-- A measure that decreases from every hypothesis to the next one bounds the rounds. -/
theorem Session.length_le_measure (measure : H → ℕ)
    (hdec : ∀ examples answers h h', pick examples h → (∃ e ∈ answers, ¬ sat h e) →
      pick (examples ++ answers) h' → measure h' < measure h)
    {bound : ℕ} (hbound : ∀ examples h, pick examples h → measure h ≤ bound)
    (s : Session sat pick tried examples) :
    tried.length ≤ bound + 1 ∧ ∀ h, pick examples h → tried.length + measure h ≤ bound := by
  induction s with
  | start => exact ⟨by simp, fun h hh => by simpa using hbound _ h hh⟩
  | @round tried examples h answers _ hh hviolated ih =>
    have hlast := ih.2 h hh
    rw [List.length_append, List.length_singleton]
    refine ⟨by omega, fun h' hh' => ?_⟩
    have := hdec _ _ h h' hh hviolated hh'
    omega

end HiceDt.Ice
