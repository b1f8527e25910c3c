import Mathlib.Data.Finset.Card
import Mathlib.Data.Finset.SDiff
import Mathlib.Logic.Relation
import HiceDt.Lib.Loop

/-!
# Depth-first search

`visit S fuel node` enters a node, visits the successors that have not been seen, and
leaves the node; a state records what happens when nodes are entered and left. `fuel`
bounds the depth of the recursion.

Results:

* `exists_edge_leaving`: how a path leaves a set of nodes.
* `visit_spec`: the invariant rule. The invariant may speak about the nodes that are
  entered and not left; the search returns if `fuel` is at least the number of unseen nodes.
-/

namespace HiceDt.DepthFirst

open HiceDt Loop

variable {Node σ : Type} [DecidableEq Node]

/-- The nodes of a graph and their successors, and what is done when a node is entered
    and left. -/
structure Search (Node σ : Type) where
  graph : List Node
  next : Node → List Node
  enter : Node → σ → σ
  leave : Node → σ → σ

/-- Visits a node that has not been seen. -/
def visit (S : Search Node σ) : ℕ → Node → List Node × σ → Option (List Node × σ)
  | 0, _, _ => none
  | fuel + 1, node, s => do
    let s ← (S.next node).foldlM (fun s n =>
      if n ∈ S.graph ∧ n ∉ s.1 then visit S fuel n s else some s) (node :: s.1, S.enter node s.2)
    return (s.1, S.leave node s.2)

namespace Search

variable (S : Search Node σ)

/-- There is an edge to a node of the graph. -/
def Edge (u v : Node) : Prop := v ∈ S.next u ∧ v ∈ S.graph

/-- There is a path. -/
def Reaches : Node → Node → Prop := Relation.ReflTransGen S.Edge

/-- A visit of `root` may enter the node when the nodes of the path are entered and not
    left, the current one first. -/
def Enters (root : Node) : List Node → Node → Prop
  | [], n => n = root
  | p :: _, n => n ∈ S.next p

/-- The nodes that have not been seen. -/
def unseen (seen : List Node) : Finset Node := S.graph.toFinset \ seen.toFinset

variable {S} {seen seen' : List Node} {n : Node}

theorem unseen_subset (h : seen ⊆ seen') : S.unseen seen' ⊆ S.unseen seen :=
  Finset.sdiff_subset_sdiff (Finset.Subset.refl _) fun _ hx =>
    List.mem_toFinset.mpr (h (List.mem_toFinset.mp hx))

theorem card_unseen_cons (hn : n ∈ S.graph) (hnew : n ∉ seen) :
    (S.unseen (n :: seen)).card < (S.unseen seen).card := by
  refine Finset.card_lt_card ((Finset.ssubset_iff_of_subset ?_).mpr ⟨n, ?_, ?_⟩)
  · exact unseen_subset (List.subset_cons_self n seen)
  · simp [unseen, hn, hnew]
  · simp [unseen]

omit [DecidableEq Node] in
/-- A path that leaves a set of nodes does so along an edge. -/
theorem exists_edge_leaving {P : Node → Prop} {u w : Node} (h : S.Reaches u w) (hu : P u)
    (hw : ¬ P w) : ∃ y x, S.Reaches u y ∧ P y ∧ S.Edge y x ∧ ¬ P x := by
  induction h with
  | refl => exact absurd hu hw
  | @tail v x hv hedge ih =>
    by_cases hP : P v
    · exact ⟨v, x, hv, hP, hedge, hw⟩
    · exact ih hP

end Search

variable {S : Search Node σ}

/-- Invariant rule: `I path seen x` holds with the nodes `path` entered and not left. It is
    kept when an unseen node is entered, and when a node is left all whose successors have
    been seen. -/
theorem visit_spec (root : Node) {I : List Node → List Node → σ → Prop}
    (henter : ∀ path seen x n, I path seen x → n ∈ S.graph → n ∉ seen → S.Enters root path n →
      I (n :: path) (n :: seen) (S.enter n x))
    (hleave : ∀ path seen x n, I (n :: path) seen x → (∀ m, S.Edge n m → m ∈ seen) →
      I path seen (S.leave n x)) :
    ∀ {fuel : ℕ} {n : Node} {path seen : List Node} {x : σ}, (S.unseen seen).card ≤ fuel →
      I path seen x → n ∈ S.graph → n ∉ seen → S.Enters root path n →
      ∃ seen' x', visit S fuel n (seen, x) = some (seen', x') ∧ I path seen' x' ∧
        n :: seen ⊆ seen' := by
  intro fuel
  induction fuel with
  | zero =>
    intro n path seen x hfuel _ hn hnew _
    have hcard := Search.card_unseen_cons hn hnew
    omega
  | succ fuel ih =>
    intro n path seen x hfuel hI hn hnew hedge
    have hcard := Search.card_unseen_cons hn hnew
    obtain ⟨s', hrun, hI', hsub, hdone⟩ := foldlM_spec
      (f := fun (s : List Node × σ) m => if m ∈ S.graph ∧ m ∉ s.1 then visit S fuel m s else some s)
      (l := S.next n) (s := (n :: seen, S.enter n x))
      (I := fun done s => I (n :: path) s.1 s.2 ∧ n :: seen ⊆ s.1 ∧
        ∀ m ∈ done, m ∈ S.graph → m ∈ s.1)
      (fun done m rest s hl hs => by
        obtain ⟨hI, hsub, hdone⟩ := hs
        by_cases hm : m ∈ S.graph ∧ m ∉ s.1
        · have hle := Finset.card_le_card (Search.unseen_subset (S := S) hsub)
          obtain ⟨seen', x', hrun, hI', hsub'⟩ := ih (n := m) (x := s.2) (by omega) hI hm.1 hm.2
            (show m ∈ S.next n by
              rw [hl]
              simp)
          refine ⟨(seen', x'), by rw [if_pos hm, hrun], hI', ?_, ?_⟩
          · exact List.Subset.trans hsub (List.subset_of_cons_subset hsub')
          · intro m' hm' hgraph
            rcases List.mem_append.mp hm' with hm' | hm'
            · exact hsub' (List.mem_cons_of_mem _ (hdone m' hm' hgraph))
            · rw [List.mem_singleton.mp hm']
              exact hsub' List.mem_cons_self
        · refine ⟨s, if_neg hm, hI, hsub, fun m' hm' hgraph => ?_⟩
          rcases List.mem_append.mp hm' with hm' | hm'
          · exact hdone m' hm' hgraph
          · rw [List.mem_singleton.mp hm'] at hgraph ⊢
            by_contra hno
            exact hm ⟨hgraph, hno⟩)
      ⟨henter path seen x n hI hn hnew hedge, List.Subset.refl _, by simp⟩
    refine ⟨s'.1, S.leave n s'.2, ?_, ?_, hsub⟩
    · rw [visit, hrun]
      rfl
    · exact hleave path s'.1 s'.2 n hI' fun m hm => hdone m hm.1 hm.2

end HiceDt.DepthFirst
