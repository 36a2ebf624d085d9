import SyntaxDrawing.Proofs.Layout.ShortestPaths

/-!
# What a layout does not reach

A node that the walk does not come to is the target of an edge from another such node, or from
itself. So it takes a cycle to keep a node from its place, and without one a layout with a root
places every node. What is not reached stays as it is.
-/

namespace SyntaxDrawing.Layout

open Coordinate Relation

variable {n : Nat} {ids : Vector String n} {edges : List Edge} {tree : SpanningTree n}

namespace BreadthFirst

theorem exists_unvisited_parent (h : BreadthFirst ids edges tree) {i : Fin n}
    (hi : i ∉ tree.visits.map Visit.node) :
    ∃ j, j ∉ tree.visits.map Visit.node ∧ Joined ids edges j i := by
  have hRoot : ¬ ∀ j, ¬ Joined ids edges j i := by
    rw [← h.root_iff]
    rintro rfl
    exact hi ((h.visited_iff tree.root).mpr .refl)
  obtain ⟨j, hj⟩ := not_forall_not.mp hRoot
  refine ⟨j, ?_, hj⟩
  intro hVisited
  exact hi ((h.visited_iff i).mpr (((h.visited_iff j).mp hVisited).tail hj))

/-- Going back along edges from a node that is not visited never ends, so some node comes again. -/
theorem visited_of_acyclic (h : BreadthFirst ids edges tree)
    (hAcyclic : ∀ i, ¬ TransGen (Joined ids edges) i i) (i : Fin n) :
    i ∈ tree.visits.map Visit.node := by
  have : Std.Irrefl (TransGen (Joined ids edges)) := ⟨hAcyclic⟩
  have hWellFounded := Finite.wellFounded_of_trans_of_irrefl (TransGen (Joined ids edges))
  induction i using hWellFounded.induction with
  | _ i ih =>
    by_contra hi
    obtain ⟨j, hj, hJoined⟩ := h.exists_unvisited_parent hi
    exact hj (ih j (.single hJoined))

theorem length_visits_of_all (h : BreadthFirst ids edges tree)
    (hAll : ∀ i, i ∈ tree.visits.map Visit.node) : tree.visits.length = n := by
  have hPerm : (tree.visits.map Visit.node).Perm (List.finRange n) :=
    (List.perm_ext_iff_of_nodup h.nodup (List.nodup_finRange n)).mpr fun i =>
      iff_of_true (hAll i) (List.mem_finRange i)
  have hLength := hPerm.length_eq
  rwa [List.length_map, List.length_finRange] at hLength

end BreadthFirst

/-- A layout moves the nodes that its walk visits and no others. Behind every other node there is
a further one, so that with no cycle among the edges all nodes are visited. -/
theorem arrange_covers {α : Type} [Coordinate α] {g : Geometry α} {nodes : List (Node α)}
    {edges : List Edge} {summary : Summary α} {placed : List (Node α)}
    (h : arrange g nodes edges = .ok (summary, placed)) :
    let joined := Joined (nodeIds nodes) edges
    ∃ tree, spanningTree (nodeIds nodes) edges = .ok tree ∧
      ∃ moved : Fin nodes.length → Node α, placed = List.ofFn moved ∧
        (∀ v ∈ tree.visits, moved v.node = (nodes.get v.node).moveTo
          ⟨(tree.centres g).get v.node, ofCount v.depth * g.levelHeight⟩) ∧
        (∀ i, i ∉ tree.visits.map Visit.node → moved i = nodes.get i ∧
          ∃ j, j ∉ tree.visits.map Visit.node ∧ joined j i) ∧
        ((∀ i, ¬ TransGen joined i i) →
          (∀ i, i ∈ tree.visits.map Visit.node) ∧ summary.nodeCount = nodes.length) := by
  intro joined
  obtain ⟨tree, hTree, rfl, rfl⟩ := arrange_eq_ok_iff.mp h
  have hOrder := SpanningTree.levelOrder hTree
  have hBreadth := SpanningTree.breadthFirst hTree
  refine ⟨tree, hTree, tree.moved g nodes, rfl, ?_, ?_, ?_⟩
  · intro v hv
    exact SpanningTree.moved_visit hOrder hv
  · intro i hi
    exact ⟨SpanningTree.moved_of_notMem hi, hBreadth.exists_unvisited_parent hi⟩
  · intro hAcyclic
    have hAll := hBreadth.visited_of_acyclic hAcyclic
    exact ⟨hAll, hBreadth.length_visits_of_all hAll⟩

def diamondEdges : List Edge :=
  [.between "a" "b", .between "a" "c", .between "b" "d", .between "c" "d"]

theorem arrange_covers_diamond : ∃ summary placed,
    arrange .standard (plainNodes ["a", "b", "c", "d"]) diamondEdges = .ok (summary, placed) ∧
      (∀ i, ¬ TransGen (Joined (nodeIds (plainNodes ["a", "b", "c", "d"])) diamondEdges) i i) ∧
      summary.nodeCount = 4 := by
  obtain ⟨tree, hTree⟩ :=
    exists_tree_iff.mpr (by decide : (roots (resolve (nodeIds (plainNodes ["a", "b", "c", "d"]))
      diamondEdges)).length = 1)
  have hForward : ∀ i j, Joined (nodeIds (plainNodes ["a", "b", "c", "d"])) diamondEdges i j →
      i < j := by
    simp only [← mem_children_iff]
    decide
  have hAcyclic : ∀ i,
      ¬ TransGen (Joined (nodeIds (plainNodes ["a", "b", "c", "d"])) diamondEdges) i i := by
    intro i hCycle
    have hLess : TransGen (· < ·) i i := TransGen.mono hForward i i hCycle
    rw [transGen_eq_self] at hLess
    exact lt_irrefl i hLess
  have hArrange := arrange_eq_of_tree (g := .standard) hTree
  obtain ⟨_, _, _, _, _, _, hCovers⟩ := arrange_covers hArrange
  exact ⟨_, _, hArrange, hAcyclic, (hCovers hAcyclic).2⟩

end SyntaxDrawing.Layout
