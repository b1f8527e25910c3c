import Mathlib.Data.List.Nodup
import HiceDt.Lib.DepthFirst

/-!
# Strongly connected components

Model of `StronglyConnectedComponents` (`Boogie/Source/Graph/Graph.cs`, lines
1166–1356). `Compute` orders the nodes by post times of a search along `preds`, and then
collects the nodes of a search along `succs` from every node of this order.

Results:

* `postOrder_spec`: what the order says about paths.
* `findSCC_spec`: a search from an unseen node collects its component.
* `compute_spec`: the components, and their order.
* `IsComponents.rank_spec`: what the position of a component says.
-/

namespace HiceDt.Boogie

open HiceDt DepthFirst Loop

/-- `StronglyConnectedComponents`; `graph` has the keys of the dictionary. -/
structure StronglyConnectedComponents (Node : Type) where
  graph : List Node
  preds : Node → List Node
  succs : Node → List Node
  nodup : graph.Nodup

namespace StronglyConnectedComponents

variable {Node : Type} (g : StronglyConnectedComponents Node)

/-- `OrderNodes` with `dfsNext = preds`; the state is the stack `postOrder`. -/
def orderNodes : Search Node (List Node) where
  graph := g.graph
  next := g.preds
  enter := fun _ postOrder => postOrder
  leave := fun node postOrder => node :: postOrder

/-- `FindSCCs` with `dfsNext = succs`; the state is `currSCC`. -/
def findSCCs : Search Node (List Node) where
  graph := g.graph
  next := g.succs
  enter := fun node currSCC => currSCC ++ [node]
  leave := fun _ currSCC => currSCC

/-- An iteration of the first loop of `Compute`. -/
def orderNode [DecidableEq Node] (s : List Node × List Node) (n : Node) :
    Option (List Node × List Node) :=
  if n ∈ s.1 then some s else visit g.orderNodes g.graph.length n s

/-- The first loop of `Compute`. -/
def postOrder [DecidableEq Node] : Option (List Node) := do
  let s ← g.graph.foldlM g.orderNode ([], [])
  return s.2

/-- An iteration of the second loop of `Compute`. -/
def findSCC [DecidableEq Node] (s : List Node × List (List Node)) (n : Node) :
    Option (List Node × List (List Node)) :=
  if n ∈ s.1 then some s
  else do
    let r ← visit g.findSCCs g.graph.length n (s.1, [])
    return (r.1, s.2 ++ [r.2])

/-- `Compute`: the list `sccs`. -/
def compute [DecidableEq Node] : Option (List (List Node)) := do
  let postOrder ← g.postOrder
  let s ← postOrder.foldlM g.findSCC ([], [])
  return s.2

/-! ## Paths -/

variable {g}

/-- There is a path along `succs`. -/
abbrev Reaches (g : StronglyConnectedComponents Node) : Node → Node → Prop := g.findSCCs.Reaches

/-- There are paths in both directions. -/
def Connected (g : StronglyConnectedComponents Node) (u v : Node) : Prop :=
  g.Reaches u v ∧ g.Reaches v u

/-- `preds` and `succs` describe the same edges. -/
def Inverse (g : StronglyConnectedComponents Node) : Prop :=
  ∀ u ∈ g.graph, ∀ v ∈ g.graph, v ∈ g.succs u ↔ u ∈ g.preds v

theorem Connected.symm {u v : Node} (h : g.Connected u v) : g.Connected v u := ⟨h.2, h.1⟩

theorem Connected.trans {u v w : Node} (h : g.Connected u v) (h' : g.Connected v w) :
    g.Connected u w := ⟨h.1.trans h'.1, h'.2.trans h.2⟩

theorem mem_of_reaches {S : Search Node (List Node)} {u v : Node} (h : S.Reaches u v)
    (hu : u ∈ S.graph) : v ∈ S.graph := by
  cases h with
  | refl => exact hu
  | tail _ hedge => exact hedge.2

/-- A path along `preds` is a path along `succs` backwards. -/
theorem reaches_of_orderNodes (hinv : g.Inverse) {u v : Node} (hu : u ∈ g.graph)
    (h : g.orderNodes.Reaches u v) : g.Reaches v u := by
  induction h with
  | refl => exact .refl
  | @tail v w huv hedge ih =>
    have hv : v ∈ g.graph := mem_of_reaches huv hu
    exact .head ⟨(hinv w hedge.2 v hv).mpr hedge.1, hv⟩ ih

/-- A path along `succs` is a path along `preds` backwards. -/
theorem orderNodes_reaches (hinv : g.Inverse) {u v : Node} (hu : u ∈ g.graph)
    (h : g.Reaches u v) : g.orderNodes.Reaches v u := by
  induction h with
  | refl => exact .refl
  | @tail v w huv hedge ih =>
    have hv : v ∈ g.graph := mem_of_reaches huv hu
    exact .head ⟨(hinv v hv w hedge.2).mp hedge.1, hv⟩ ih

/-! ## The order of the nodes -/

/-- A node is reached from the nodes that it reaches: a component for the search
    along `preds`. -/
def Linked (g : StronglyConnectedComponents Node) (u v : Node) : Prop :=
  g.orderNodes.Reaches u v ∧ g.orderNodes.Reaches v u

/-- The nodes `path` are entered and not left. The successors of nodes on the stack have
    been seen; a path that leaves the lower part `B` of the stack starts at a node that is
    connected with one above `B` or on `path`. -/
structure OrderInv (g : StronglyConnectedComponents Node) (path seen postOrder : List Node) :
    Prop where
  mem_seen : ∀ x, x ∈ seen ↔ x ∈ postOrder ∨ x ∈ path
  nodup : (path ++ postOrder).Nodup
  graph : ∀ x ∈ seen, x ∈ g.graph
  closed : ∀ x ∈ postOrder, ∀ m, g.orderNodes.Edge x m → m ∈ seen
  chain : path.Pairwise fun n p => g.orderNodes.Reaches p n
  above : ∀ A B, postOrder = A ++ B → ∀ u ∈ B, ∀ w, g.orderNodes.Reaches u w → w ∉ B →
    ∃ a, (a ∈ A ∨ a ∈ path) ∧ g.Linked a u

variable {path seen postOrder : List Node} {n root : Node}

theorem OrderInv.enter (h : g.OrderInv path seen postOrder) (hn : n ∈ g.graph) (hnew : n ∉ seen)
    (henters : g.orderNodes.Enters root path n) : g.OrderInv (n :: path) (n :: seen) postOrder where
  mem_seen x := by
    rw [List.mem_cons, List.mem_cons, h.mem_seen x]
    tauto
  nodup := by
    refine List.nodup_cons.mpr ⟨fun hmem => hnew ((h.mem_seen n).mpr ?_), h.nodup⟩
    exact (List.mem_append.mp hmem).symm
  graph x hx := by
    rcases List.mem_cons.mp hx with rfl | hx
    · exact hn
    · exact h.graph x hx
  closed x hx m hm := List.mem_cons_of_mem _ (h.closed x hx m hm)
  chain := by
    refine List.pairwise_cons.mpr ⟨fun p hp => ?_, h.chain⟩
    cases path with
    | nil => cases hp
    | cons q rest =>
      have hq : g.orderNodes.Reaches q n := .single ⟨henters, hn⟩
      rcases List.mem_cons.mp hp with rfl | hp
      · exact hq
      · exact (List.rel_of_pairwise_cons h.chain hp).trans hq
  above A B hAB u hu w huw hw := by
    obtain ⟨a, ha, hlinked⟩ := h.above A B hAB u hu w huw hw
    exact ⟨a, ha.imp_right (List.mem_cons_of_mem _), hlinked⟩

/-- A node that is left and reaches a node outside the stack is connected with a node of
    the path. -/
theorem OrderInv.linked_of_reaches (h : g.OrderInv (n :: path) seen postOrder)
    (hdone : ∀ m, g.orderNodes.Edge n m → m ∈ seen) {w : Node} (hnw : g.orderNodes.Reaches n w)
    (hw : w ∉ n :: postOrder) : ∃ a ∈ path, g.Linked a n := by
  obtain ⟨y, x, hny, hy, hedge, hx⟩ := Search.exists_edge_leaving (P := fun v => v ∈ n :: postOrder)
    hnw List.mem_cons_self hw
  have hseen : x ∈ seen := by
    rcases List.mem_cons.mp hy with rfl | hy
    · exact hdone x hedge
    · exact h.closed y hy x hedge
  have hpath : x ∈ path := by
    rw [List.mem_cons, not_or] at hx
    rcases (h.mem_seen x).mp hseen with hpost | hpath
    · exact absurd hpost hx.2
    · exact (List.mem_cons.mp hpath).resolve_left hx.1
  exact ⟨x, hpath, List.rel_of_pairwise_cons h.chain hpath, hny.tail hedge⟩

theorem OrderInv.leave (h : g.OrderInv (n :: path) seen postOrder)
    (hdone : ∀ m, g.orderNodes.Edge n m → m ∈ seen) : g.OrderInv path seen (n :: postOrder) where
  mem_seen x := by
    rw [h.mem_seen x, List.mem_cons, List.mem_cons]
    tauto
  nodup := List.perm_middle.nodup_iff.mpr h.nodup
  graph := h.graph
  closed x hx m hm := by
    rcases List.mem_cons.mp hx with rfl | hx
    · exact hdone m hm
    · exact h.closed x hx m hm
  chain := (List.pairwise_cons.mp h.chain).2
  above A B hAB u hu w huw hw := by
    cases A with
    | nil =>
      obtain rfl : n :: postOrder = B := hAB
      rcases List.mem_cons.mp hu with rfl | hu
      · obtain ⟨a, ha, hlinked⟩ := h.linked_of_reaches hdone huw hw
        exact ⟨a, .inr ha, hlinked⟩
      · obtain ⟨a, ha, hau, hua⟩ := h.above [] postOrder rfl u hu w huw fun hmem =>
          hw (List.mem_cons_of_mem _ hmem)
        rcases List.mem_cons.mp (ha.resolve_left (by simp)) with rfl | ha
        · obtain ⟨b, hb, hbn, hnb⟩ := h.linked_of_reaches hdone (hau.trans huw) hw
          exact ⟨b, .inr hb, hbn.trans hau, hua.trans hnb⟩
        · exact ⟨a, .inr ha, hau, hua⟩
    | cons m A =>
      rw [List.cons_append] at hAB
      obtain ⟨rfl, hrest⟩ := List.cons.inj hAB
      obtain ⟨a, ha, hlinked⟩ := h.above A B hrest u hu w huw hw
      refine ⟨a, ?_, hlinked⟩
      rcases ha with ha | ha
      · exact .inl (List.mem_cons_of_mem _ ha)
      · rcases List.mem_cons.mp ha with rfl | ha
        · exact .inl List.mem_cons_self
        · exact .inr ha

variable [DecidableEq Node]

theorem card_unseen_le (S : Search Node (List Node)) (seen : List Node) :
    (S.unseen seen).card ≤ S.graph.length :=
  (Finset.card_le_card Finset.sdiff_subset).trans (List.toFinset_card_le _)

/-- The stack has all nodes. -/
theorem postOrder_spec (g : StronglyConnectedComponents Node) :
    ∃ stack, g.postOrder = some stack ∧ stack.Nodup ∧ (∀ x, x ∈ stack ↔ x ∈ g.graph) ∧
      ∀ A B, stack = A ++ B → ∀ u ∈ B, ∀ w, g.orderNodes.Reaches u w → w ∉ B →
        ∃ a ∈ A, g.Linked a u := by
  obtain ⟨s, hrun, hinv, hdone⟩ := foldlM_spec (f := g.orderNode) (l := g.graph) (s := ([], []))
    (I := fun done s => g.OrderInv [] s.1 s.2 ∧ ∀ x ∈ done, x ∈ s.1)
    (fun done n rest s hl hs => by
      obtain ⟨hinv, hdone⟩ := hs
      by_cases hseen : n ∈ s.1
      · refine ⟨s, if_pos hseen, hinv, fun x hx => ?_⟩
        rcases List.mem_append.mp hx with hx | hx
        · exact hdone x hx
        · rw [List.mem_singleton.mp hx]
          exact hseen
      · have hn : n ∈ g.graph := by
          rw [hl]
          simp
        obtain ⟨seen', stack, hrun, hinv', hsub⟩ : ∃ seen' stack,
            visit g.orderNodes g.graph.length n s = some (seen', stack) ∧
              g.OrderInv [] seen' stack ∧ n :: s.1 ⊆ seen' := visit_spec n
          (S := g.orderNodes) (I := fun path seen stack => g.OrderInv path seen stack)
          (fun path seen x m h hm hnew hent => h.enter hm hnew hent)
          (fun path seen x m h hdone => h.leave hdone)
          (card_unseen_le _ _) hinv hn hseen rfl
        refine ⟨(seen', stack), by rw [orderNode, if_neg hseen, hrun], hinv', fun x hx => ?_⟩
        rcases List.mem_append.mp hx with hx | hx
        · exact hsub (List.mem_cons_of_mem _ (hdone x hx))
        · rw [List.mem_singleton.mp hx]
          exact hsub List.mem_cons_self)
    ⟨⟨by simp, by simp, by simp, by simp, by simp, by simp⟩, by simp⟩
  have hmem : ∀ x, x ∈ s.2 ↔ x ∈ g.graph := by
    intro x
    have hiff := hinv.mem_seen x
    rw [or_iff_left (by simp)] at hiff
    exact ⟨fun hx => hinv.graph x (hiff.mpr hx), fun hx => hiff.mp (hdone x hx)⟩
  refine ⟨s.2, by rw [StronglyConnectedComponents.postOrder, hrun]; rfl, hinv.nodup, hmem, ?_⟩
  intro A B hAB u hu w huw hw
  obtain ⟨a, ha, hlinked⟩ := hinv.above A B hAB u hu w huw hw
  exact ⟨a, ha.resolve_right (by simp), hlinked⟩

/-! ## The components -/

/-- A set that every path stays in. -/
def Closed (g : StronglyConnectedComponents Node) (l : List Node) : Prop :=
  ∀ x ∈ l, ∀ m, g.findSCCs.Edge x m → m ∈ l

omit [DecidableEq Node] in
theorem Closed.reaches {l : List Node} (h : g.Closed l) {u v : Node} (hu : u ∈ l)
    (huv : g.Reaches u v) : v ∈ l := by
  by_contra hv
  obtain ⟨y, x, -, hy, hedge, hx⟩ := Search.exists_edge_leaving (P := fun w => w ∈ l) huv hu hv
  exact hx (h y hy x hedge)

/-- During a search from `root`: `old` are the nodes seen before, `path` the ones entered
    and not left. -/
structure FindInv (g : StronglyConnectedComponents Node) (root : Node)
    (old path seen currSCC : List Node) : Prop where
  mem_seen : ∀ x, x ∈ seen ↔ x ∈ old ++ currSCC
  nodup : (old ++ currSCC).Nodup
  graph : ∀ x ∈ currSCC, x ∈ g.graph
  reached : ∀ x ∈ currSCC, g.Reaches root x
  entered : ∀ x ∈ path, x ∈ currSCC
  closed : ∀ x ∈ currSCC, x ∉ path → ∀ m, g.findSCCs.Edge x m → m ∈ seen

variable {old currSCC : List Node}

omit [DecidableEq Node] in
theorem FindInv.enter (h : g.FindInv root old path seen currSCC) (hn : n ∈ g.graph)
    (hnew : n ∉ seen) (henters : g.findSCCs.Enters root path n) :
    g.FindInv root old (n :: path) (n :: seen) (currSCC ++ [n]) where
  mem_seen x := by
    rw [List.mem_cons, h.mem_seen x, ← List.append_assoc, List.mem_append (s := old ++ currSCC),
      List.mem_singleton, or_comm]
  nodup := by
    rw [← List.append_assoc]
    refine h.nodup.append (List.nodup_singleton n) (List.disjoint_singleton.mpr fun hmem => ?_)
    exact hnew ((h.mem_seen n).mpr hmem)
  graph x hx := by
    rcases List.mem_append.mp hx with hx | hx
    · exact h.graph x hx
    · rw [List.mem_singleton.mp hx]
      exact hn
  reached x hx := by
    rcases List.mem_append.mp hx with hx | hx
    · exact h.reached x hx
    · rw [List.mem_singleton.mp hx]
      cases path with
      | nil =>
        obtain rfl : n = root := henters
        exact .refl
      | cons p rest => exact (h.reached p (h.entered p List.mem_cons_self)).tail ⟨henters, hn⟩
  entered x hx := by
    rcases List.mem_cons.mp hx with rfl | hx
    · simp
    · exact List.mem_append_left _ (h.entered x hx)
  closed x hx hpath m hm := by
    rw [List.mem_cons, not_or] at hpath
    rcases List.mem_append.mp hx with hx | hx
    · exact List.mem_cons_of_mem _ (h.closed x hx hpath.2 m hm)
    · exact absurd (List.mem_singleton.mp hx) hpath.1

omit [DecidableEq Node] in
theorem FindInv.leave (h : g.FindInv root old (n :: path) seen currSCC)
    (hdone : ∀ m, g.findSCCs.Edge n m → m ∈ seen) : g.FindInv root old path seen currSCC where
  mem_seen := h.mem_seen
  nodup := h.nodup
  graph := h.graph
  reached := h.reached
  entered x hx := h.entered x (List.mem_cons_of_mem _ hx)
  closed x hx hpath m hm := by
    by_cases hxn : x = n
    · exact hdone m (hxn ▸ hm)
    · exact h.closed x hx (fun hmem => (List.mem_cons.mp hmem).elim hxn hpath) m hm

/-- A search that starts when the closed set `old` has been seen collects the nodes that
    are reached and not in `old`. -/
theorem visit_findSCCs (hold : g.Closed old) (hnd : old.Nodup) (hseen : ∀ x, x ∈ seen ↔ x ∈ old)
    (hn : n ∈ g.graph) (hnew : n ∉ seen) :
    ∃ seen' currSCC, visit g.findSCCs g.graph.length n (seen, []) = some (seen', currSCC) ∧
      (∀ x, x ∈ seen' ↔ x ∈ old ++ currSCC) ∧ (old ++ currSCC).Nodup ∧
      g.Closed (old ++ currSCC) ∧ (∀ w, w ∈ currSCC ↔ g.Reaches n w ∧ w ∉ old) := by
  obtain ⟨seen', currSCC, hrun, hinv, hsub⟩ : ∃ seen' currSCC,
      visit g.findSCCs g.graph.length n (seen, []) = some (seen', currSCC) ∧
        g.FindInv n old [] seen' currSCC ∧ n :: seen ⊆ seen' := visit_spec n (S := g.findSCCs)
    (I := fun path seen currSCC => g.FindInv n old path seen currSCC)
    (fun path seen x m h hm hnew hent => h.enter hm hnew hent)
    (fun path seen x m h hdone => h.leave hdone)
    (card_unseen_le _ _)
    ⟨by simpa using hseen, by simpa using hnd, by simp, by simp, by simp, by simp⟩
    hn hnew rfl
  have hclosed : g.Closed (old ++ currSCC) := by
    intro x hx m hm
    rcases List.mem_append.mp hx with hx | hx
    · exact List.mem_append_left _ (hold x hx m hm)
    · exact (hinv.mem_seen m).mp (hinv.closed x hx (by simp) m hm)
  refine ⟨seen', currSCC, hrun, hinv.mem_seen, hinv.nodup, hclosed, fun w =>
    ⟨fun hw => ?_, fun hw => ?_⟩⟩
  · exact ⟨hinv.reached w hw, fun hmem => List.disjoint_of_nodup_append hinv.nodup hmem hw⟩
  · have hroot : n ∈ old ++ currSCC := (hinv.mem_seen n).mp (hsub List.mem_cons_self)
    exact (List.mem_append.mp (hclosed.reaches hroot hw.1)).resolve_left hw.2

/-- The lists are the strongly connected components of the graph, and there are no paths to
    later ones. -/
structure IsComponents (g : StronglyConnectedComponents Node) (sccs : List (List Node)) : Prop where
  nodup : sccs.flatten.Nodup
  graph : ∀ x ∈ sccs.flatten, x ∈ g.graph
  ne_nil : ∀ scc ∈ sccs, scc ≠ []
  connected : ∀ scc ∈ sccs, ∀ x ∈ scc, ∀ y, y ∈ scc ↔ g.Connected x y
  order : sccs.Pairwise fun scc scc' => ∀ x ∈ scc, ∀ y ∈ scc', ¬ g.Reaches x y

/-- An iteration of the second loop of `Compute`: `done` are the nodes that were popped. -/
theorem findSCC_spec (hinv : g.Inverse) {A B : List Node} (hnd : (A ++ n :: B).Nodup)
    (hgraph : ∀ x, x ∈ A ++ n :: B ↔ x ∈ g.graph)
    (habove : ∀ u ∈ B, ∀ w, g.orderNodes.Reaches u w → w ∉ B → ∃ a ∈ A ++ [n], g.Linked a u)
    {sccs : List (List Node)} (hseen : ∀ x, x ∈ seen ↔ x ∈ sccs.flatten) (hA : ∀ x ∈ A, x ∈ seen)
    (hclosed : g.Closed sccs.flatten) (hcomp : g.IsComponents sccs) :
    ∃ seen' sccs', g.findSCC (seen, sccs) n = some (seen', sccs') ∧
      (∀ x, x ∈ seen' ↔ x ∈ sccs'.flatten) ∧ (∀ x ∈ A ++ [n], x ∈ seen') ∧
      g.Closed sccs'.flatten ∧ g.IsComponents sccs' := by
  have hn : n ∈ g.graph := (hgraph n).mp (by simp)
  have hdone : ∀ {seen' : List Node}, (∀ x ∈ seen, x ∈ seen') → n ∈ seen' → ∀ x ∈ A ++ [n],
      x ∈ seen' := by
    intro seen' hsub hmem x hx
    rcases List.mem_append.mp hx with hx | hx
    · exact hsub x (hA x hx)
    · rw [List.mem_singleton.mp hx]
      exact hmem
  by_cases hold : n ∈ seen
  · exact ⟨seen, sccs, if_pos hold, hseen, hdone (fun _ hx => hx) hold, hclosed, hcomp⟩
  obtain ⟨seen', currSCC, hrun, hmem, hnd', hclosed', hreach⟩ :=
    visit_findSCCs hclosed hcomp.nodup hseen hn hold
  have hnew : n ∉ sccs.flatten := fun h => hold ((hseen n).mpr h)
  -- a node that is reached comes later in the order, so the node above it is `n`
  have hconn : ∀ w, w ∈ currSCC ↔ g.Connected n w := by
    intro w
    rw [hreach w]
    constructor
    · rintro ⟨hnw, hw⟩
      have hwg : w ∈ g.graph := mem_of_reaches hnw hn
      by_cases hwn : w = n
      · rw [hwn]
        exact ⟨.refl, .refl⟩
      have hB : w ∈ B := by
        have hwA : w ∉ A := fun h => hw ((hseen w).mp (hA w h))
        have hall := (hgraph w).mpr hwg
        rw [List.mem_append, List.mem_cons] at hall
        exact (hall.resolve_left hwA).resolve_left hwn
      have hnB : n ∉ B := (List.nodup_cons.mp (List.nodup_append.mp hnd).2.1).1
      obtain ⟨a, ha, haw, hwa⟩ := habove w hB n (orderNodes_reaches hinv hn hnw) hnB
      have haw' : g.Reaches a w := reaches_of_orderNodes hinv hwg hwa
      rcases List.mem_append.mp ha with ha | ha
      · exact absurd (hclosed.reaches ((hseen a).mp (hA a ha)) haw') hw
      · obtain rfl := List.mem_singleton.mp ha
        exact ⟨hnw, reaches_of_orderNodes hinv hn haw⟩
    · intro hnw
      exact ⟨hnw.1, fun h => hnew (hclosed.reaches h hnw.2)⟩
  have hflat : (sccs ++ [currSCC]).flatten = sccs.flatten ++ currSCC := by simp
  refine ⟨seen', sccs ++ [currSCC], ?_, by rwa [hflat], hdone (fun x hx => ?_) ?_,
    by rwa [hflat], ?_⟩
  · rw [findSCC, if_neg hold, hrun]
    rfl
  · exact (hmem x).mpr (List.mem_append_left _ ((hseen x).mp hx))
  · exact (hmem n).mpr (List.mem_append_right _ ((hconn n).mpr ⟨.refl, .refl⟩))
  · refine ⟨by rwa [hflat], fun x hx => ?_, fun scc hscc => ?_, fun scc hscc x hx y => ?_, ?_⟩
    · rw [hflat] at hx
      rcases List.mem_append.mp hx with hx | hx
      · exact hcomp.graph x hx
      · exact mem_of_reaches ((hreach x).mp hx).1 hn
    · rcases List.mem_append.mp hscc with hscc | hscc
      · exact hcomp.ne_nil scc hscc
      · rw [List.mem_singleton.mp hscc]
        exact List.ne_nil_of_mem ((hconn n).mpr ⟨.refl, .refl⟩)
    · rcases List.mem_append.mp hscc with hscc | hscc
      · exact hcomp.connected scc hscc x hx y
      · obtain rfl := List.mem_singleton.mp hscc
        have hnx := (hconn x).mp hx
        rw [hconn y]
        exact ⟨fun hny => hnx.symm.trans hny, fun hxy => hnx.trans hxy⟩
    · refine List.pairwise_append.mpr ⟨hcomp.order, List.pairwise_singleton _ _, ?_⟩
      intro scc hscc scc' hscc' x hx y hy hxy
      obtain rfl := List.mem_singleton.mp hscc'
      exact ((hreach y).mp hy).2 (hclosed.reaches (List.mem_flatten.mpr ⟨scc, hscc, hx⟩) hxy)

/-- `Compute` yields the strongly connected components, every node in one of them. -/
theorem compute_spec (hinv : g.Inverse) :
    ∃ sccs, g.compute = some sccs ∧ sccs.flatten.Perm g.graph ∧ g.IsComponents sccs := by
  obtain ⟨stack, hstack, hnd, hgraph, habove⟩ := postOrder_spec g
  obtain ⟨s, hrun, hseen, hdone, -, hcomp⟩ :=
    foldlM_spec (f := g.findSCC) (l := stack) (s := ([], []))
    (I := fun done s => (∀ x, x ∈ s.1 ↔ x ∈ s.2.flatten) ∧ (∀ x ∈ done, x ∈ s.1) ∧
      g.Closed s.2.flatten ∧ g.IsComponents s.2)
    (fun done n rest s hl hs => by
      obtain ⟨hseen, hdone, hclosed, hcomp⟩ := hs
      obtain ⟨seen', sccs', hstep, h⟩ := findSCC_spec hinv (hl ▸ hnd) (hl ▸ hgraph)
        (fun u hu w huw hw => habove (done ++ [n]) rest (by simp [hl]) u hu w huw hw)
        hseen hdone hclosed hcomp
      exact ⟨(seen', sccs'), hstep, h⟩)
    ⟨by simp, by simp, by simp [Closed], by simp, by simp, by simp, by simp, by simp⟩
  refine ⟨s.2, ?_, ?_, hcomp⟩
  · rw [compute, hstack]
    simp only [Option.bind_eq_bind, Option.bind_some, hrun]
    rfl
  · refine (List.perm_ext_iff_of_nodup hcomp.nodup g.nodup).mpr fun x => ?_
    exact ⟨hcomp.graph x, fun hx => (hseen x).mp (hdone x ((hgraph x).mpr hx))⟩

/-! ## Ranks -/

/-- The position of the component of a node. -/
def rank (sccs : List (List Node)) (x : Node) : ℕ := sccs.findIdx fun scc => x ∈ scc

theorem rank_eq {sccs : List (List Node)} (hnd : sccs.flatten.Nodup) {x : Node} {i : ℕ}
    (hi : i < sccs.length) (hx : x ∈ sccs[i]) : rank sccs x = i := by
  have hlt : rank sccs x < sccs.length :=
    List.findIdx_lt_length_of_exists ⟨sccs[i], List.getElem_mem hi, decide_eq_true hx⟩
  have hrank : x ∈ sccs[rank sccs x] := of_decide_eq_true (List.findIdx_getElem (w := hlt))
  have hdisjoint := List.pairwise_iff_getElem.mp (List.nodup_flatten.mp hnd).2
  rcases Nat.lt_trichotomy (rank sccs x) i with h | h | h
  · exact absurd hx (hdisjoint _ _ hlt hi h hrank)
  · exact h
  · exact absurd hrank (hdisjoint _ _ hi hlt h hx)

/-- Later nodes have components at later positions. -/
theorem IsComponents.pairwise_rank {sccs : List (List Node)} (h : g.IsComponents sccs) :
    sccs.flatten.Pairwise fun x y => rank sccs x ≤ rank sccs y := by
  rw [List.pairwise_flatten]
  refine ⟨fun scc hscc => ?_, List.pairwise_iff_getElem.mpr fun i j hi hj hij x hx y hy => ?_⟩
  · obtain ⟨i, hi, rfl⟩ := List.getElem_of_mem hscc
    refine List.Pairwise.imp_of_mem (R := fun _ _ => True) (fun hx hy _ => ?_)
      (List.pairwise_of_forall fun _ _ => trivial)
    rw [rank_eq h.nodup hi hx, rank_eq h.nodup hi hy]
  · rw [rank_eq h.nodup hi hx, rank_eq h.nodup hj hy]
    exact le_of_lt hij

/-- Nodes of the same rank are connected, and paths do not lead to later ones. -/
theorem IsComponents.rank_spec {sccs : List (List Node)} (h : g.IsComponents sccs) {x y : Node}
    (hx : x ∈ sccs.flatten) (hy : y ∈ sccs.flatten) :
    (rank sccs x = rank sccs y ↔ g.Connected x y) ∧
      (g.Reaches x y → rank sccs y ≤ rank sccs x) := by
  obtain ⟨scc, hscc, hxs⟩ := List.mem_flatten.mp hx
  obtain ⟨scc', hscc', hys⟩ := List.mem_flatten.mp hy
  obtain ⟨i, hi, rfl⟩ := List.getElem_of_mem hscc
  obtain ⟨j, hj, rfl⟩ := List.getElem_of_mem hscc'
  rw [rank_eq h.nodup hi hxs, rank_eq h.nodup hj hys, ← h.connected _ hscc x hxs y]
  refine ⟨⟨fun hij => ?_, fun hmem => ?_⟩, fun hxy => ?_⟩
  · subst hij
    exact hys
  · rw [← rank_eq h.nodup hi hmem, rank_eq h.nodup hj hys]
  · by_contra hlt
    exact List.pairwise_iff_getElem.mp h.order i j hi hj (not_le.mp hlt) x hxs y hys hxy

/-! ## The order inside a component -/

omit [DecidableEq Node] in
theorem flatten_map_perm {enumerate : List Node → List Node} (h : ∀ l, (enumerate l).Perm l)
    (sccs : List (List Node)) : (sccs.map enumerate).flatten.Perm sccs.flatten := by
  induction sccs with
  | nil => exact .refl _
  | cons scc sccs ih => exact (h scc).append ih

omit [DecidableEq Node] in
/-- The members of the components may be visited in any order. -/
theorem IsComponents.map {enumerate : List Node → List Node} (henum : ∀ l, (enumerate l).Perm l)
    {sccs : List (List Node)} (h : g.IsComponents sccs) :
    g.IsComponents (sccs.map enumerate) := by
  have hflat := flatten_map_perm henum sccs
  refine ⟨hflat.nodup_iff.mpr h.nodup, fun x hx => h.graph x (hflat.subset hx), ?_, ?_, ?_⟩
  · intro scc' hscc'
    obtain ⟨scc, hscc, rfl⟩ := List.mem_map.mp hscc'
    intro hnil
    have hperm := henum scc
    rw [hnil] at hperm
    exact h.ne_nil scc hscc hperm.nil_eq.symm
  · intro scc' hscc' x hx y
    obtain ⟨scc, hscc, rfl⟩ := List.mem_map.mp hscc'
    rw [(henum scc).mem_iff]
    exact h.connected scc hscc x ((henum scc).subset hx) y
  · rw [List.pairwise_map]
    refine h.order.imp fun {scc scc'} hno x hx y hy => ?_
    exact hno x ((henum scc).subset hx) y ((henum scc').subset hy)

end StronglyConnectedComponents

end HiceDt.Boogie
