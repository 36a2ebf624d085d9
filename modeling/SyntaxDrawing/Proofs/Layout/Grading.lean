import SyntaxDrawing.Proofs.Layout.Arrangement
import SyntaxDrawing.Proofs.Layout.Links

/-!
# Nodes on levels

Suppose that every link leads from its source one level down and that only nodes on level zero have
no link to them. Then the roots are the nodes on level zero, and from an only root the walk comes to
every node, each on its level.
-/

namespace SyntaxDrawing.Layout

open Coordinate

/-- Links that lead one level down, to every node below level zero. -/
structure Graded {n : Nat} (links : List (Link n)) (level : Fin n → Nat) : Prop where
  down : ∀ l ∈ links, level l.target = level l.source + 1
  top : ∀ i, (∀ l ∈ links, l.target ≠ i) → level i = 0

namespace Graded

variable {n : Nat} {links : List (Link n)} {level : Fin n → Nat} {root : Fin n}

theorem mem_roots_iff (h : Graded links level) (i : Fin n) : i ∈ roots links ↔ level i = 0 := by
  rw [Layout.mem_roots_iff]
  constructor
  · exact h.top i
  · rintro hLevel l hl rfl
    have hDown := h.down l hl
    omega

theorem roots_eq (h : Graded links level) :
    roots links = (List.finRange n).filter fun i => level i = 0 := by
  rw [roots]
  apply List.filter_congr
  intro i hi
  have hIff := h.mem_roots_iff i
  rw [roots, List.mem_filter] at hIff
  rw [Bool.eq_iff_iff, decide_eq_true_eq, ← hIff]
  exact ⟨fun hMark => ⟨hi, hMark⟩, And.right⟩

theorem exists_visit (h : Graded links level) (hRoot : roots links = [root]) (i : Fin n) :
    ∃ v ∈ visits (childTable links).get root, v.node = i := by
  generalize hd : level i = d
  induction d generalizing i with
  | zero =>
    obtain ⟨v, hv, hNode, _⟩ := (visits_levelOrder _ root).exists_root_visit
    have hi : i ∈ roots links := (h.mem_roots_iff i).mpr hd
    rw [hRoot, List.mem_singleton] at hi
    exact ⟨v, hv, hNode.trans hi.symm⟩
  | succ d ih =>
    have hLink : ∃ l ∈ links, l.target = i := by
      by_contra hNone
      have hTop := h.top i fun l hl hTarget => hNone ⟨l, hl, hTarget⟩
      omega
    obtain ⟨l, hl, rfl⟩ := hLink
    have hDown := h.down l hl
    obtain ⟨v, hv, hNode⟩ := ih l.source (by omega)
    apply (visits_offspring _ root hv).2
    rw [get_childTable, hNode]
    exact List.mem_map.mpr ⟨l, List.mem_filter.mpr ⟨hl, decide_eq_true rfl⟩, rfl⟩

theorem depth_eq (h : Graded links level) (hRoot : roots links = [root]) :
    ∀ v ∈ visits (childTable links).get root, v.depth = level v.node := by
  refine (visits_levelOrder _ root).induction (P := fun v => v.depth = level v.node) ?_ ?_
  · intro v _ hNode hDepth
    have hMem : root ∈ roots links := hRoot ▸ List.mem_singleton_self root
    rw [hNode, (h.mem_roots_iff root).mp hMem, hDepth]
  · intro v hv hDepth u _ hKept hSucc
    have hChild := (visits_offspring _ root hv).1.subset hKept
    rw [get_childTable] at hChild
    obtain ⟨l, hl, hTarget⟩ := List.mem_map.mp hChild
    obtain ⟨hMem, hSource⟩ := List.mem_filter.mp hl
    have hDown := h.down l hMem
    rw [hTarget, of_decide_eq_true hSource] at hDown
    omega

end Graded

variable {α : Type} [Coordinate α] {g : Geometry α} {nodes : List (Node α)} {edges : List Edge}
  {level : Fin nodes.length → Nat}

theorem layout_of_graded (h : Graded (resolve (nodeIds nodes) edges) level)
    (hTop : ((List.finRange nodes.length).filter fun i => level i = 0).length = 1) :
    ∃ x : Fin nodes.length → α, (∀ i, level i = 0 → x i = g.originX) ∧
      layout g nodes edges =
        List.ofFn fun i => (nodes.get i).moveTo ⟨x i, ofCount (level i) * g.levelHeight⟩ := by
  rw [← h.roots_eq] at hTop
  obtain ⟨tree, hTree⟩ := exists_tree_iff.mpr hTop
  obtain ⟨hRoot, hVisits⟩ := spanningTree_eq_ok_iff.mp hTree
  have hOrder := SpanningTree.levelOrder hTree
  obtain ⟨summary, hArrange⟩ := arrange_of_tree (g := g) hTree
  refine ⟨fun i => (tree.centres g).get i, ?_, ?_⟩
  · intro i hi
    have hMem := (h.mem_roots_iff i).mpr hi
    rw [hRoot, List.mem_singleton] at hMem
    rw [hMem]
    exact hOrder.get_centres_root _
  · rw [layout, hArrange]
    apply congrArg List.ofFn
    funext i
    obtain ⟨v, hv, rfl⟩ := h.exists_visit hRoot i
    rw [← h.depth_eq hRoot v hv]
    rw [← hVisits] at hv
    exact SpanningTree.moved_visit hOrder hv

theorem layout_of_tops (h : Graded (resolve (nodeIds nodes) edges) level)
    (hTop : ((List.finRange nodes.length).filter fun i => level i = 0).length ≠ 1) :
    layout g nodes edges = nodes := by
  rw [← h.roots_eq] at hTop
  cases hArrange : arrange g nodes edges with
  | error f => rw [layout, hArrange]
  | ok result =>
    obtain ⟨tree, hTree, _⟩ := exists_tree_of_arrange hArrange
    exact absurd (exists_tree_iff.mp ⟨tree, hTree⟩) hTop

end SyntaxDrawing.Layout
