import Mathlib.Data.List.Basic
import Mathlib.Data.List.Perm.Basic

/-!
# Rearranging a segment of a list

`Rearranged l r v v'` says that `v'` is `v` with the entries at the indexes
`l, …, r` permuted among each other.

Results:

* `Rearranged.refl`, `Rearranged.trans`, `rearranged_segment`: how such changes
  come about.
* `Rearranged.outside`, `Rearranged.inside`, `Rearranged.inside_symm`: entry by
  entry.
-/

namespace HiceDt

variable {α : Type*} {l r : ℕ} {v v' v'' : List α}

/-- `v'` is `v` with the segment `l, …, r` permuted. -/
def Rearranged (l r : ℕ) (v v' : List α) : Prop :=
  ∃ A M M' C, v = A ++ (M ++ C) ∧ v' = A ++ (M' ++ C) ∧ M'.Perm M ∧ A.length = l ∧
    M.length = r + 1 - l

theorem rearranged_segment (hl : l ≤ r) (hr : r < v.length) {M' : List α}
    (h : M'.Perm ((v.drop l).take (r + 1 - l))) :
    Rearranged l r v (v.take l ++ (M' ++ v.drop (r + 1))) := by
  refine ⟨v.take l, (v.drop l).take (r + 1 - l), M', v.drop (r + 1), ?_, rfl, h, ?_, ?_⟩
  · have h1 : v.drop (r + 1) = (v.drop l).drop (r + 1 - l) := by
      rw [List.drop_drop]
      congr 1
      omega
    rw [h1, List.take_append_drop, List.take_append_drop]
  · rw [List.length_take]
    omega
  · rw [List.length_take, List.length_drop]
    omega

theorem Rearranged.refl (hl : l ≤ r) (hr : r < v.length) : Rearranged l r v v := by
  have h := rearranged_segment hl hr (List.Perm.refl ((v.drop l).take (r + 1 - l)))
  have h1 : v.drop (r + 1) = (v.drop l).drop (r + 1 - l) := by
    rw [List.drop_drop]
    congr 1
    omega
  rwa [h1, List.take_append_drop, List.take_append_drop] at h

theorem Rearranged.trans (h : Rearranged l r v v') (h' : Rearranged l r v' v'') :
    Rearranged l r v v'' := by
  obtain ⟨A, M, M', C, rfl, rfl, hp, hA, hM⟩ := h
  obtain ⟨A₂, M₂, M'', C₂, he, rfl, hp', hA₂, hM₂⟩ := h'
  obtain ⟨hAA, hMC⟩ := List.append_inj he (by rw [hA, hA₂])
  obtain ⟨hMM, hCC⟩ := List.append_inj hMC (by rw [hp.length_eq, hM, hM₂])
  subst hAA hMM hCC
  exact ⟨A, M, M'', C, rfl, rfl, hp'.trans hp, hA, hM⟩

theorem Rearranged.perm (h : Rearranged l r v v') : v'.Perm v := by
  obtain ⟨A, M, M', C, rfl, rfl, hp, -, -⟩ := h
  exact (hp.append_right C).append_left A

theorem Rearranged.length_eq (h : Rearranged l r v v') : v'.length = v.length :=
  h.perm.length_eq

theorem Rearranged.symm (h : Rearranged l r v v') : Rearranged l r v' v := by
  obtain ⟨A, M, M', C, rfl, rfl, hp, hA, hM⟩ := h
  exact ⟨A, M', M, C, rfl, rfl, hp.symm, hA, by rw [hp.length_eq, hM]⟩

/-- Entries outside of the segment stay. -/
theorem Rearranged.outside (h : Rearranged l r v v') (hlr : l ≤ r) {i : ℕ}
    (hi : i < l ∨ r < i) : v'[i]? = v[i]? := by
  obtain ⟨A, M, M', C, rfl, rfl, hp, hA, hM⟩ := h
  have hM' : M'.length = r + 1 - l := by rw [hp.length_eq, hM]
  rcases hi with hi | hi
  · rw [List.getElem?_append_left (by omega), List.getElem?_append_left (by omega)]
  · rw [List.getElem?_append_right (by omega), List.getElem?_append_right (by omega),
      List.getElem?_append_right (by omega), List.getElem?_append_right (by omega), hM, hM']

/-- An entry of the segment comes from the segment. -/
theorem Rearranged.inside (h : Rearranged l r v v') {i : ℕ} (hl : l ≤ i) (hr : i ≤ r) :
    ∃ j, l ≤ j ∧ j ≤ r ∧ v'[i]? = v[j]? := by
  obtain ⟨A, M, M', C, rfl, rfl, hp, hA, hM⟩ := h
  have hM' : M'.length = r + 1 - l := by rw [hp.length_eq, hM]
  have hi : i - l < M'.length := by omega
  have hmem : M'[i - l] ∈ M := hp.subset (List.getElem_mem hi)
  obtain ⟨j, hj, he⟩ := List.getElem_of_mem hmem
  refine ⟨l + j, by omega, by omega, ?_⟩
  have h1 : (A ++ (M' ++ C))[i]? = some M'[i - l] := by
    rw [List.getElem?_append_right (by omega), List.getElem?_append_left (by omega), hA,
      List.getElem?_eq_getElem hi]
  have h2 : (A ++ (M ++ C))[l + j]? = some M[j] := by
    rw [List.getElem?_append_right (by omega), List.getElem?_append_left (by omega), hA,
      show l + j - l = j by omega, List.getElem?_eq_getElem hj]
  rw [h1, h2, he]

theorem Rearranged.inside_symm (h : Rearranged l r v v') {j : ℕ} (hl : l ≤ j) (hr : j ≤ r) :
    ∃ i, l ≤ i ∧ i ≤ r ∧ v[j]? = v'[i]? := h.symm.inside hl hr

/-- A sorted segment is sorted entry by entry. -/
theorem pairwise_segment {R : α → α → Prop} (hr : r < v.length) {M' : List α}
    (hM : M'.length = r + 1 - l) (hp : M'.Pairwise R) {i j : ℕ} (hl : l ≤ i) (hij : i < j)
    (hj : j ≤ r) {a b : α} (ha : (v.take l ++ (M' ++ v.drop (r + 1)))[i]? = some a)
    (hb : (v.take l ++ (M' ++ v.drop (r + 1)))[j]? = some b) : R a b := by
  have hA : (v.take l).length = l := by
    rw [List.length_take]
    omega
  rw [List.getElem?_append_right (by omega), List.getElem?_append_left (by omega), hA,
    List.getElem?_eq_getElem (by omega), Option.some.injEq] at ha hb
  rw [← ha, ← hb]
  exact List.pairwise_iff_getElem.mp hp _ _ _ _ (by omega)

end HiceDt
