import SyntaxDrawing.Proofs.Layout.Passes
import Mathlib.Data.List.OfFn

/-!
# What a layout returns

A layout succeeds just when its edges span a tree from an only root. Then each visited node stands
at its centre on its level, and every other node where it stood.
-/

namespace SyntaxDrawing.Layout

open Coordinate

theorem soleRoot_eq_ok_iff {n : Nat} {links : List (Link n)} {root : Fin n} :
    soleRoot links = .ok root ↔ roots links = [root] := by
  rw [soleRoot]
  split
  · rename_i hn
    subst hn
    exact root.elim0
  · split
    · rename_i hRoots
      simp [hRoots]
    · rename_i r hRoots
      simp [hRoots]
    · rename_i hNotNil hNotOne
      constructor
      · rintro ⟨⟩
      · intro hRoots
        exact absurd hRoots (hNotOne root)

theorem spanningTree_eq_ok_iff {n : Nat} {ids : Vector String n} {edges : List Edge}
    {tree : SpanningTree n} :
    spanningTree ids edges = .ok tree ↔
      roots (resolve ids edges) = [tree.root] ∧
        tree.visits = visits (childTable (resolve ids edges)).get tree.root := by
  rw [← soleRoot_eq_ok_iff, spanningTree]
  cases soleRoot (resolve ids edges) with
  | error f => simp
  | ok root =>
    obtain ⟨root', visits'⟩ := tree
    simp only [Except.ok.injEq, SpanningTree.mk.injEq]
    constructor
    · rintro ⟨rfl, rfl⟩
      exact ⟨rfl, rfl⟩
    · rintro ⟨rfl, rfl⟩
      exact ⟨rfl, rfl⟩

theorem exists_tree_iff {n : Nat} {ids : Vector String n} {edges : List Edge} :
    (∃ tree, spanningTree ids edges = .ok tree) ↔ (roots (resolve ids edges)).length = 1 := by
  rw [List.length_eq_one_iff]
  constructor
  · rintro ⟨tree, hTree⟩
    exact ⟨tree.root, (spanningTree_eq_ok_iff.mp hTree).1⟩
  · rintro ⟨root, hRoot⟩
    exact ⟨⟨root, visits (childTable (resolve ids edges)).get root⟩,
      spanningTree_eq_ok_iff.mpr ⟨hRoot, rfl⟩⟩

namespace SpanningTree

variable {n : Nat}

theorem levelOrder {ids : Vector String n} {edges : List Edge} {tree : SpanningTree n}
    (h : spanningTree ids edges = .ok tree) : LevelOrder tree.root tree.visits := by
  rw [(spanningTree_eq_ok_iff.mp h).2]
  exact visits_levelOrder _ tree.root

variable {α : Type} [Coordinate α]

def widths (g : Geometry α) (tree : SpanningTree n) : Vector α n :=
  subtreeWidths g tree.visits

def centres (g : Geometry α) (tree : SpanningTree n) : Vector α n :=
  Layout.centres g (tree.widths g) tree.visits

def moved (g : Geometry α) (nodes : List (Node α)) (tree : SpanningTree nodes.length)
    (i : Fin nodes.length) : Node α :=
  ((positions g (tree.centres g) tree.visits).get i).elim (nodes.get i) (nodes.get i).moveTo

theorem moved_visit {g : Geometry α} {nodes : List (Node α)} {tree : SpanningTree nodes.length}
    (h : LevelOrder tree.root tree.visits) {v : Visit nodes.length} (hv : v ∈ tree.visits) :
    tree.moved g nodes v.node =
      (nodes.get v.node).moveTo ⟨(tree.centres g).get v.node, ofCount v.depth * g.levelHeight⟩ := by
  rw [moved, get_positions _ h.nodup hv]
  rfl

theorem moved_of_notMem {g : Geometry α} {nodes : List (Node α)}
    {tree : SpanningTree nodes.length} {i : Fin nodes.length}
    (hi : i ∉ tree.visits.map Visit.node) : tree.moved g nodes i = nodes.get i := by
  rw [moved, get_positions_of_notMem _ hi]
  rfl

end SpanningTree

variable {α : Type} [Coordinate α] {g : Geometry α} {nodes : List (Node α)} {edges : List Edge}

def SpanningTree.summary (g : Geometry α) (nodes : List (Node α))
    (tree : SpanningTree nodes.length) : Summary α :=
  { root := (nodeIds nodes).get tree.root
    nodeCount := tree.visits.length
    depth := tree.visits.foldl (fun deepest v => max deepest v.depth) 0
    width := (tree.widths g).get tree.root }

theorem arrange_eq_of_tree {tree : SpanningTree nodes.length}
    (h : spanningTree (nodeIds nodes) edges = .ok tree) :
    arrange g nodes edges = .ok (tree.summary g nodes, List.ofFn (tree.moved g nodes)) := by
  rw [arrange]
  simp only [h, Except.ok.injEq, Prod.mk.injEq]
  refine ⟨rfl, ?_⟩
  apply List.ext_getElem
  · simp
  · intro i hi hi'
    simp [SpanningTree.moved, SpanningTree.centres, SpanningTree.widths, get_eq_getElem]

theorem arrange_eq_ok_iff {summary : Summary α} {placed : List (Node α)} :
    arrange g nodes edges = .ok (summary, placed) ↔
      ∃ tree, spanningTree (nodeIds nodes) edges = .ok tree ∧ summary = tree.summary g nodes ∧
        placed = List.ofFn (tree.moved g nodes) := by
  constructor
  · intro h
    cases hTree : spanningTree (nodeIds nodes) edges with
    | error f =>
      simp only [arrange, hTree] at h
      cases h
    | ok tree =>
      rw [arrange_eq_of_tree hTree] at h
      cases h
      exact ⟨tree, rfl, rfl, rfl⟩
  · rintro ⟨tree, hTree, rfl, rfl⟩
    exact arrange_eq_of_tree hTree

theorem arrange_eq_error_iff {e : LayoutFailure} :
    arrange g nodes edges = .error e ↔ spanningTree (nodeIds nodes) edges = .error e := by
  cases hTree : spanningTree (nodeIds nodes) edges with
  | error e' => simp only [arrange, hTree, Except.error.injEq]
  | ok tree =>
    rw [arrange_eq_of_tree hTree]
    simp only [reduceCtorEq]

theorem exists_tree_of_arrange {summary : Summary α} {placed : List (Node α)}
    (h : arrange g nodes edges = .ok (summary, placed)) :
    ∃ tree, spanningTree (nodeIds nodes) edges = .ok tree ∧
      placed = List.ofFn (tree.moved g nodes) := by
  obtain ⟨tree, hTree, -, hPlaced⟩ := arrange_eq_ok_iff.mp h
  exact ⟨tree, hTree, hPlaced⟩

theorem arrange_of_tree {tree : SpanningTree nodes.length}
    (h : spanningTree (nodeIds nodes) edges = .ok tree) :
    ∃ summary, arrange g nodes edges = .ok (summary, List.ofFn (tree.moved g nodes)) :=
  ⟨tree.summary g nodes, arrange_eq_of_tree h⟩

end SyntaxDrawing.Layout
