import SyntaxDrawing.Proofs.Layout.Outcome

/-!
# Layouts of nodes that share an id

Edges lead to and from the last node with an id alone. A node in front of it that has the same id is
the target of no edge and has no children. So a layout of nodes with a repeated id has a root; if it
has no other, it draws this node and nothing below it.
-/

namespace SyntaxDrawing.Layout

open Coordinate Relation

variable {n : Nat} {ids : Vector String n} {edges : List Edge} {tree : SpanningTree n}

/-- A later node has the same id. -/
def Shadowed (ids : Vector String n) (i : Fin n) : Prop :=
  ∃ j, i < j ∧ ids.get i = ids.get j

namespace Shadowed

theorem not_holder {i : Fin n} (h : Shadowed ids i) (s : String) : ¬ Holder ids s i := by
  rintro ⟨hId, hLast⟩
  obtain ⟨j, hj, hSame⟩ := h
  exact hLast j hj (hSame.symm.trans hId)

theorem not_joined_from {i : Fin n} (h : Shadowed ids i) (j : Fin n) : ¬ Joined ids edges i j := by
  rintro ⟨e, -, hSource, -⟩
  exact h.not_holder e.source hSource

theorem mem_free {i : Fin n} (h : Shadowed ids i) : i ∈ free ids edges := by
  rintro j ⟨e, -, -, hTarget⟩
  exact h.not_holder e.target hTarget

end Shadowed

theorem free_eq_singleton_of_mem {i : Fin n} (hMem : i ∈ free ids edges)
    (hFew : (free ids edges).ncard < 2) : free ids edges = {i} := by
  have hPos := (Set.ncard_pos (free ids edges).toFinite).mpr ⟨i, hMem⟩
  have hOne : (free ids edges).ncard = 1 := by omega
  obtain ⟨root, hRoot⟩ := Set.ncard_eq_one.mp hOne
  rw [hRoot] at hMem ⊢
  rw [Set.mem_singleton_iff.mp hMem]

/-- A walk from a node that no edge leaves goes nowhere. -/
theorem visits_of_alone (h : spanningTree ids edges = .ok tree)
    (hAlone : ∀ j, ¬ Joined ids edges tree.root j) : tree.visits = [⟨tree.root, 0, []⟩] := by
  have hBreadth := SpanningTree.breadthFirst h
  have hOnly : ∀ i ∈ tree.visits.map Visit.node, i = tree.root := by
    intro i hi
    rcases ((hBreadth.visited_iff i).mp hi).cases_head with hRoot | ⟨j, hJoined, -⟩
    · exact hRoot.symm
    · exact absurd hJoined (hAlone j)
  obtain ⟨v, hv, hNode, hDepth⟩ := (SpanningTree.levelOrder h).exists_root_visit
  have hKept : v.kept = [] := by
    rw [List.eq_nil_iff_forall_not_mem]
    intro c hc
    obtain ⟨hNe, hVisited⟩ := hBreadth.kept v hv c hc
    exact hNe (hOnly c hVisited)
  have hEq : v = ⟨tree.root, 0, []⟩ := by
    rw [← hNode, ← hDepth, ← hKept]
  have hNodup : tree.visits.Nodup := List.Nodup.of_map Visit.node hBreadth.nodup
  rw [← hEq, ← List.perm_singleton, List.perm_ext_iff_of_nodup hNodup (List.nodup_singleton v)]
  intro u
  rw [List.mem_singleton]
  constructor
  · intro hu
    exact (SpanningTree.levelOrder h).visit_eq hu hv
      ((hOnly u.node (List.mem_map_of_mem hu)).trans hNode.symm)
  · rintro rfl
    exact hv

section

variable {α : Type} [Coordinate α] {g : Geometry α} {nodes : List (Node α)}

theorem shadowed_nodeIds_iff {i : Fin nodes.length} :
    Shadowed (nodeIds nodes) i ↔ ∃ j, i < j ∧ (nodes.get i).id = (nodes.get j).id := by
  simp only [Shadowed, get_nodeIds]

theorem exists_shadowed (h : ¬ (nodes.map Node.id).Nodup) : ∃ i, Shadowed (nodeIds nodes) i := by
  rw [List.Nodup, List.pairwise_map, List.pairwise_iff_get] at h
  push Not at h
  obtain ⟨i, j, hij, hSame⟩ := h
  exact ⟨i, shadowed_nodeIds_iff.mpr ⟨j, hij, hSame⟩⟩

/-- The layout from a root that no edge leaves. -/
theorem arrange_of_alone {root : Fin nodes.length} (hFree : free (nodeIds nodes) edges = {root})
    (hAlone : ∀ j, ¬ Joined (nodeIds nodes) edges root j) :
    arrange g nodes edges =
      .ok (⟨(nodes.get root).id, 1, 0, g.nodeWidth⟩,
        nodes.modify root.val (·.moveTo ⟨g.originX, ofCount 0 * g.levelHeight⟩)) := by
  obtain ⟨tree, hTree⟩ := exists_tree_iff.mpr
    (congrArg List.length (free_eq_singleton_iff.mp hFree) : _ = 1)
  have hRoots := (spanningTree_eq_ok_iff.mp hTree).1
  rw [free_eq_singleton_iff.mp hFree] at hRoots
  cases hRoots
  have hVisits := visits_of_alone hTree hAlone
  have hOrder := SpanningTree.levelOrder hTree
  have hVisit : (⟨tree.root, 0, []⟩ : Visit nodes.length) ∈ tree.visits := by
    rw [hVisits]
    exact List.mem_singleton_self _
  rw [arrange_eq_of_tree hTree, SpanningTree.summary, get_nodeIds]
  have hWidth : (tree.widths g).get tree.root = g.nodeWidth := hOrder.get_subtreeWidths hVisit
  have hCentre : (tree.centres g).get tree.root = g.originX := hOrder.get_centres_root _
  rw [hWidth, hVisits]
  refine congrArg Except.ok (Prod.ext rfl ?_)
  apply List.ext_getElem
  · simp
  · intro k hk hk'
    rw [List.getElem_ofFn, List.getElem_modify]
    split
    · next hRoot =>
      subst hRoot
      have hMoved := SpanningTree.moved_visit (g := g) hOrder hVisit
      rw [hCentre] at hMoved
      exact hMoved
    · next hOther =>
      apply SpanningTree.moved_of_notMem
      rw [hVisits, List.map_singleton, List.mem_singleton]
      intro hRoot
      exact hOther (congrArg Fin.val hRoot).symm

/-- A layout of nodes with a repeated id finds a root among the earlier nodes with the id. It either
finds more roots, or moves this node alone, to where a root stands. -/
theorem arrange_repeated (g : Geometry α) {nodes : List (Node α)} (edges : List Edge)
    (h : ¬ (nodes.map Node.id).Nodup) :
    let free := free (nodeIds nodes) edges
    (∀ i j : Fin nodes.length, i < j → (nodes.get i).id = (nodes.get j).id → i ∈ free) ∧
    arrange g nodes edges ≠ .error .noRoot ∧
    (2 ≤ free.ncard ∧ arrange g nodes edges = .error (.manyRoots free.ncard) ∨
      ∃ i j : Fin nodes.length, i < j ∧ (nodes.get i).id = (nodes.get j).id ∧ free = {i} ∧
        arrange g nodes edges =
          .ok ({ root := (nodes.get i).id, nodeCount := 1, depth := 0, width := g.nodeWidth },
            nodes.modify i (·.moveTo ⟨g.originX, ofCount 0 * g.levelHeight⟩))) := by
  intro free
  obtain ⟨i, hi⟩ := exists_shadowed h
  have hMem : i ∈ free := hi.mem_free
  refine ⟨?_, ?_, ?_⟩
  · intro i j hij hSame
    exact (shadowed_nodeIds_iff.mpr ⟨j, hij, hSame⟩).mem_free
  · intro hNone
    rcases spanningTree_eq_error_iff.mp (arrange_eq_error_iff.mp hNone) with
      ⟨hKind, -⟩ | ⟨-, -, hEmpty⟩ | ⟨hKind, -⟩
    · cases hKind
    · exact Set.notMem_empty i (hEmpty ▸ hMem)
    · cases hKind
  · rcases Nat.lt_or_ge free.ncard 2 with hFew | hMore
    · right
      obtain ⟨j, hij, hSame⟩ := shadowed_nodeIds_iff.mp hi
      have hFree : free = {i} := free_eq_singleton_of_mem hMem hFew
      exact ⟨i, j, hij, hSame, hFree, arrange_of_alone hFree hi.not_joined_from⟩
    · refine Or.inl ⟨hMore, arrange_eq_error_iff.mpr (spanningTree_eq_error_iff.mpr ?_)⟩
      exact Or.inr (Or.inr ⟨rfl, hMore⟩)

end

def collidingNodes : List (Node ℚ) :=
  plainNodes ["a", "b", "a"]

def collidingEdges : List Edge :=
  [.between "a" "b", .between "b" "a", .between "a" "a"]

theorem arrange_repeated_cycle : ¬ (collidingNodes.map Node.id).Nodup ∧
    arrange .standard collidingNodes collidingEdges =
      .ok ({ root := "a", nodeCount := 1, depth := 0, width := 120 },
        collidingNodes.modify 0 (·.moveTo ⟨0, 0⟩)) := by
  have hRepeated : ¬ (collidingNodes.map Node.id).Nodup := by decide
  obtain ⟨-, -, ⟨hMore, -⟩ | ⟨i, j, hij, hSame, -, hArrange⟩⟩ :=
    arrange_repeated .standard collidingEdges hRepeated
  · rw [ncard_free] at hMore
    exact absurd hMore (by decide)
  · have hFirst : ∀ i j : Fin collidingNodes.length, i < j →
        (collidingNodes.get i).id = (collidingNodes.get j).id →
          i.val = 0 ∧ (collidingNodes.get i).id = "a" := by decide
    obtain ⟨hIndex, hId⟩ := hFirst i j hij hSame
    have hHeight : ofCount 0 * (Geometry.standard : Geometry ℚ).levelHeight = 0 := by simp
    rw [hIndex, hId, hHeight] at hArrange
    exact ⟨hRepeated, hArrange⟩

end SyntaxDrawing.Layout
