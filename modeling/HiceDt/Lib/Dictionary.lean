import Mathlib.Data.List.Basic
import Mathlib.Data.List.Nodup

/-!
# Dictionaries that keep the order of insertion

A dictionary without removals as a list of entries: a new key is appended, and an
assignment to a key that exists changes its entry in place.

Results:

* `lookup_of_mem`, `mem_of_lookup`: an entry is found under its key.
* `set_of_not_mem`, `keys_set_of_mem`, `mem_set`: what an assignment does to the entries.
* `lookup_set`: what an assignment does to the values.
-/

namespace HiceDt.Dictionary

variable {κ υ : Type} [DecidableEq κ]

/-- The keys in the order of insertion. -/
def keys (d : List (κ × υ)) : List κ := d.map Prod.fst

/-- `d[k] = v`. -/
def set : List (κ × υ) → κ → υ → List (κ × υ)
  | [], k, v => [(k, v)]
  | e :: d, k, v => if e.1 = k then (k, v) :: d else e :: set d k v

/-- An entry is found under its key. -/
theorem lookup_of_mem {d : List (κ × υ)} (hnd : (keys d).Nodup) {k : κ} {v : υ}
    (h : (k, v) ∈ d) : d.lookup k = some v := by
  induction d with
  | nil => simp at h
  | cons e d ih =>
    obtain ⟨hnot, hnd'⟩ := List.nodup_cons.mp hnd
    rcases List.mem_cons.mp h with rfl | h
    · exact List.lookup_cons_self
    · have hne : (k == e.1) = false := by
        rw [beq_eq_false_iff_ne]
        intro hk
        exact hnot (List.mem_map.mpr ⟨(k, v), h, hk⟩)
      rw [List.lookup_cons, hne]
      exact ih hnd' h

omit [DecidableEq κ] in
theorem mem_keys_of_mem {d : List (κ × υ)} {e : κ × υ} (h : e ∈ d) : e.1 ∈ keys d :=
  List.mem_map_of_mem h

theorem mem_of_lookup {d : List (κ × υ)} {k : κ} {v : υ} (h : d.lookup k = some v) :
    (k, v) ∈ d := by
  obtain ⟨d₁, d₂, rfl, _⟩ := List.lookup_eq_some_iff.mp h
  exact List.mem_append_right _ List.mem_cons_self

/-- A key that is not found does not occur. -/
theorem not_mem_keys_iff {d : List (κ × υ)} {k : κ} : k ∉ keys d ↔ d.lookup k = none := by
  rw [List.lookup_eq_none_iff, keys, List.mem_map, not_exists]
  refine forall_congr' fun e => ?_
  rw [not_and, bne_iff_ne, ne_comm]

/-- A new key is appended. -/
theorem set_of_not_mem {d : List (κ × υ)} {k : κ} (h : k ∉ keys d) (v : υ) :
    set d k v = d ++ [(k, v)] := by
  induction d with
  | nil => rfl
  | cons e d ih =>
    obtain ⟨hne, hnot⟩ := not_or.mp (mt List.mem_cons.mpr h)
    rw [set, if_neg fun heq => hne heq.symm, ih hnot, List.cons_append]

/-- An assignment to a key that exists changes no key. -/
theorem keys_set_of_mem {d : List (κ × υ)} {k : κ} (h : k ∈ keys d) (v : υ) :
    keys (set d k v) = keys d := by
  induction d with
  | nil => simp [keys] at h
  | cons e d ih =>
    rw [set]
    by_cases he : e.1 = k
    · rw [if_pos he]
      simp [keys, he]
    · rw [if_neg he]
      have hmem : k ∈ keys d := (List.mem_cons.mp h).resolve_left fun heq => he heq.symm
      show e.1 :: keys (set d k v) = e.1 :: keys d
      rw [ih hmem]

/-- An entry after an assignment is an old one or the new one. -/
theorem mem_set {d : List (κ × υ)} {k : κ} {v : υ} {e : κ × υ} (h : e ∈ set d k v) :
    e ∈ d ∨ e = (k, v) := by
  induction d with
  | nil => exact .inr (List.mem_singleton.mp h)
  | cons e' d ih =>
    rw [set] at h
    split_ifs at h
    · rcases List.mem_cons.mp h with rfl | h
      · exact .inr rfl
      · exact .inl (List.mem_cons_of_mem _ h)
    · rcases List.mem_cons.mp h with rfl | h
      · exact .inl List.mem_cons_self
      · exact (ih h).imp_left (List.mem_cons_of_mem _)

/-- The values after an assignment. -/
theorem lookup_set (d : List (κ × υ)) (k : κ) (v : υ) (k' : κ) :
    (set d k v).lookup k' = if k' = k then some v else d.lookup k' := by
  induction d with
  | nil =>
    rw [set, List.lookup_cons]
    by_cases h : k' = k
    · rw [if_pos h, beq_iff_eq.mpr h]
    · rw [if_neg h, beq_eq_false_iff_ne.mpr h]
  | cons e d ih =>
    rw [set]
    by_cases he : e.1 = k
    · rw [if_pos he, List.lookup_cons, List.lookup_cons]
      by_cases h : k' = k
      · rw [if_pos h, beq_iff_eq.mpr h]
      · rw [if_neg h, beq_eq_false_iff_ne.mpr h, beq_eq_false_iff_ne.mpr fun heq =>
          h (heq.trans he)]
    · rw [if_neg he, List.lookup_cons, List.lookup_cons, ih]
      by_cases h' : k' = e.1
      · have hne : k' ≠ k := fun heq => he (h'.symm.trans heq)
        rw [beq_iff_eq.mpr h', if_neg hne, if_neg hne]
      · rw [beq_eq_false_iff_ne.mpr h']

end HiceDt.Dictionary
