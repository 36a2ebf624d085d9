import SyntaxDrawing.Proofs.Layout.Arrangement
import Mathlib.Algebra.Order.BigOperators.Group.List
import Mathlib.Algebra.Order.Group.Nat

/-!
# The passes as recursions over the kept tree

What the visits keep is a tree, and over a tree widths and centres have a recursive definition that
knows nothing of visits and tables. The passes over the visits compute the same numbers. No law of
arithmetic is used, so this holds of every type of coordinates.
-/

namespace SyntaxDrawing.Layout

open Coordinate

inductive KeptTree (n : Nat)
  | node (i : Fin n) (children : List (KeptTree n))

namespace KeptTree

variable {n : Nat}

def root : KeptTree n → Fin n
  | node i _ => i

mutual
def subtrees : KeptTree n → List (KeptTree n)
  | node i children => node i children :: subtreesOfRow children

def subtreesOfRow : List (KeptTree n) → List (KeptTree n)
  | [] => []
  | t :: rest => t.subtrees ++ subtreesOfRow rest
end

theorem subtreesOfRow_eq_flatMap (row : List (KeptTree n)) :
    subtreesOfRow row = row.flatMap subtrees := by
  induction row with
  | nil => rfl
  | cons t rest ih => rw [subtreesOfRow, ih, List.flatMap_cons]

theorem subtrees_node (i : Fin n) (children : List (KeptTree n)) :
    (node i children).subtrees = node i children :: children.flatMap subtrees := by
  rw [subtrees, subtreesOfRow_eq_flatMap]

theorem mem_subtrees_self (t : KeptTree n) : t ∈ t.subtrees := by
  cases t
  rw [subtrees]
  exact List.mem_cons_self

theorem mem_subtrees_of_child {t : KeptTree n} {i : Fin n} {children : List (KeptTree n)}
    (h : node i children ∈ t.subtrees) {c : KeptTree n} (hc : c ∈ children) :
    c ∈ t.subtrees := by
  -- The induction runs through the rows below a tree as well.
  refine @KeptTree.rec n (fun t => node i children ∈ t.subtrees → c ∈ t.subtrees)
    (fun row => node i children ∈ row.flatMap subtrees → c ∈ row.flatMap subtrees) ?_ ?_ ?_ t h
  · intro j row ih hMem
    rw [subtrees_node] at hMem ⊢
    rcases List.mem_cons.mp hMem with hSelf | hBelow
    · cases hSelf
      exact List.mem_cons_of_mem _ (List.mem_flatMap.mpr ⟨c, hc, c.mem_subtrees_self⟩)
    · exact List.mem_cons_of_mem _ (ih hBelow)
  · intro hMem
    cases hMem
  · intro s rest ihs ih hMem
    rw [List.flatMap_cons, List.mem_append] at hMem ⊢
    exact hMem.imp ihs ih

def nodes (t : KeptTree n) : List (Fin n) :=
  t.subtrees.map root

theorem nodes_node (i : Fin n) (children : List (KeptTree n)) :
    (node i children).nodes = i :: children.flatMap nodes := by
  rw [nodes, subtrees_node, List.map_cons, List.map_flatMap]
  rfl

section

variable {α : Type} [Coordinate α] (g : Geometry α)

mutual
/-- A node's own width if nothing is below it, and otherwise the larger of that and its row: the
widths below, added from left to right, and the gaps between them. -/
def subtreeWidth : KeptTree n → α
  | node _ children =>
    if children.isEmpty then g.nodeWidth
    else
      larger g.nodeWidth
        (widthsFrom emptySum children + ofCount (children.length - 1) * g.horizontalGap)

def widthsFrom (sum : α) : List (KeptTree n) → α
  | [] => sum
  | t :: rest => widthsFrom (sum + t.subtreeWidth) rest
end

theorem widthsFrom_eq_foldl (sum : α) (row : List (KeptTree n)) :
    widthsFrom g sum row = (row.map (subtreeWidth g)).foldl (· + ·) sum := by
  induction row generalizing sum with
  | nil => rfl
  | cons t rest ih => rw [widthsFrom, ih, List.map_cons, List.foldl_cons]

theorem rowWidth_subtreeWidths (row : List (KeptTree n)) :
    rowWidth g.horizontalGap (row.map (subtreeWidth g)) =
      widthsFrom g emptySum row + ofCount (row.length - 1) * g.horizontalGap := by
  rw [rowWidth, widthsFrom_eq_foldl, List.length_map]

mutual
/-- The nodes of a tree with their centres, where the root stands at `x`. Its row is centred below
it, and each tree of the row has its root in the middle of its width. -/
def placements (x : α) : KeptTree n → List (Fin n × α)
  | node i children =>
    (i, x) :: rowPlacements
      (x - (widthsFrom g emptySum children + ofCount (children.length - 1) * g.horizontalGap) /
        ofCount 2) children

def rowPlacements (left : α) : List (KeptTree n) → List (Fin n × α)
  | [] => []
  | t :: rest =>
    placements (left + t.subtreeWidth g / ofCount 2) t ++
      rowPlacements (left + (t.subtreeWidth g + g.horizontalGap)) rest
end

end

end KeptTree

variable {n : Nat} {root : Fin n} {visits : List (Visit n)}

/-- A tree whose rows are what the visits keep. -/
inductive Grows (visits : List (Visit n)) : KeptTree n → Prop
  | node {v : Visit n} {children : List (KeptTree n)} (hv : v ∈ visits)
      (hKept : children.map KeptTree.root = v.kept) (hGrow : ∀ t ∈ children, Grows visits t) :
      Grows visits (.node v.node children)

theorem Grows.subtree {t : KeptTree n} (h : Grows visits t) :
    ∀ s ∈ t.subtrees, Grows visits s := by
  induction h with
  | @node v children hv hKept hGrow ih =>
    intro s hs
    rw [KeptTree.subtrees_node] at hs
    rcases List.mem_cons.mp hs with rfl | hBelow
    · exact .node hv hKept hGrow
    · obtain ⟨t, ht, hMem⟩ := List.mem_flatMap.mp hBelow
      exact ih t ht s hMem

theorem Grows.mem_visits {t : KeptTree n} (h : Grows visits t) :
    ∀ i ∈ t.nodes, i ∈ visits.map Visit.node := by
  intro i hi
  obtain ⟨s, hs, rfl⟩ := List.mem_map.mp hi
  obtain ⟨hv, -, -⟩ := h.subtree s hs
  exact List.mem_map_of_mem hv

theorem exists_grown_row {row : List (Fin n)}
    (h : ∀ c ∈ row, ∃ t, Grows visits t ∧ t.root = c) :
    ∃ children : List (KeptTree n),
      children.map KeptTree.root = row ∧ ∀ t ∈ children, Grows visits t := by
  induction row with
  | nil => exact ⟨[], rfl, by simp⟩
  | cons c rest ih =>
    obtain ⟨t, ht, hRoot⟩ := h c List.mem_cons_self
    obtain ⟨children, hRest, hGrow⟩ := ih fun d hd => h d (List.mem_cons_of_mem c hd)
    refine ⟨t :: children, by rw [List.map_cons, hRoot, hRest], ?_⟩
    intro s hs
    rcases List.mem_cons.mp hs with rfl | hs
    · exact ht
    · exact hGrow s hs

namespace LevelOrder

theorem exists_grown (h : LevelOrder root visits) :
    ∀ v ∈ visits, ∃ t, Grows visits t ∧ t.root = v.node := by
  -- Children are one level down, and no level is below the sum of all.
  have hBelow : ∀ k, ∀ v ∈ visits, (visits.map Visit.depth).sum < v.depth + k →
      ∃ t, Grows visits t ∧ t.root = v.node := by
    intro k
    induction k with
    | zero =>
      intro v hv hDepth
      have hLe := List.le_sum_of_mem (List.mem_map_of_mem (f := Visit.depth) hv)
      omega
    | succ k ih =>
      intro v hv hDepth
      have hRow : ∀ c ∈ v.kept, ∃ t, Grows visits t ∧ t.root = c := by
        intro c hc
        obtain ⟨u, hu, rfl, hSucc⟩ := h.exists_child_visit hv hc
        exact ih u hu (by omega)
      obtain ⟨children, hKept, hGrow⟩ := exists_grown_row hRow
      exact ⟨.node v.node children, .node hv hKept hGrow, rfl⟩
  intro v hv
  exact hBelow ((visits.map Visit.depth).sum + 1) v hv (by omega)

theorem mem_nodes_iff (h : LevelOrder root visits) {t : KeptTree n} (hGrow : Grows visits t)
    (hRoot : t.root = root) (i : Fin n) : i ∈ t.nodes ↔ i ∈ visits.map Visit.node := by
  constructor
  · exact hGrow.mem_visits i
  · intro hi
    obtain ⟨v, hv, rfl⟩ := List.mem_map.mp hi
    refine h.induction (P := fun v => v.node ∈ t.nodes) ?_ ?_ v hv
    · rintro u _ hNode _
      rw [hNode, ← hRoot]
      exact List.mem_map_of_mem t.mem_subtrees_self
    · intro u hu hMem w _ hKept _
      obtain ⟨s, hs, hNode⟩ := List.mem_map.mp hMem
      obtain @⟨u', children, hu', hRow, -⟩ := hGrow.subtree s hs
      rw [h.visit_eq hu' hu hNode] at hRow
      rw [← hRow] at hKept
      obtain ⟨c, hc, hChild⟩ := List.mem_map.mp hKept
      rw [← hChild]
      exact List.mem_map_of_mem (KeptTree.mem_subtrees_of_child hs hc)

/-- The tree of all visits. -/
theorem exists_whole (h : LevelOrder root visits) : ∃ whole : KeptTree n,
    whole.root = root ∧ Grows visits whole ∧ ∀ i, i ∈ whole.nodes ↔ i ∈ visits.map Visit.node := by
  obtain ⟨v, hv, rfl, -⟩ := h.exists_root_visit
  obtain ⟨whole, hGrow, hRoot⟩ := h.exists_grown v hv
  exact ⟨whole, hRoot, hGrow, h.mem_nodes_iff hGrow hRoot⟩

variable {α : Type} [Coordinate α] {g : Geometry α}

theorem get_subtreeWidths_grown (h : LevelOrder root visits) {t : KeptTree n}
    (hGrow : Grows visits t) : (subtreeWidths g visits).get t.root = t.subtreeWidth g := by
  induction hGrow with
  | @node v children hv hKept hGrow ih =>
    have hRow : v.kept.map (subtreeWidths g visits).get =
        children.map (KeptTree.subtreeWidth g) := by
      rw [← hKept, List.map_map]
      exact List.map_congr_left ih
    have hEmpty : v.kept.isEmpty = children.isEmpty := by rw [← hKept, List.isEmpty_map]
    rw [KeptTree.root, h.get_subtreeWidths hv, hRow, hEmpty, KeptTree.rowWidth_subtreeWidths,
      KeptTree.subtreeWidth]

theorem map_subtreeWidths_grown (h : LevelOrder root visits) {v : Visit n}
    {children : List (KeptTree n)} (hKept : children.map KeptTree.root = v.kept)
    (hGrow : ∀ t ∈ children, Grows visits t) :
    v.kept.map (subtreeWidths g visits).get = children.map (KeptTree.subtreeWidth g) := by
  rw [← hKept, List.map_map]
  exact List.map_congr_left fun t ht => h.get_subtreeWidths_grown (hGrow t ht)

/-- A row whose roots stand at these centres. -/
theorem rowPlacements_grown (x : Fin n → α) {row : List (KeptTree n)}
    (hRow : ∀ t ∈ row, t.placements g (x t.root) = t.nodes.map fun i => (i, x i)) {left : α}
    (hRoots : (row.map KeptTree.root).map x =
      rowCentres g.horizontalGap left (row.map (KeptTree.subtreeWidth g))) :
    KeptTree.rowPlacements g left row = (row.flatMap KeptTree.nodes).map fun i => (i, x i) := by
  induction row generalizing left with
  | nil => rfl
  | cons t rest ih =>
    simp only [List.map_cons, rowCentres, List.cons.injEq] at hRoots
    obtain ⟨hRoot, hRest⟩ := hRoots
    have hFirst := hRow t List.mem_cons_self
    rw [hRoot] at hFirst
    rw [KeptTree.rowPlacements, hFirst,
      ih (fun s hs => hRow s (List.mem_cons_of_mem t hs)) hRest, List.flatMap_cons,
      List.map_append]

theorem placements_grown (h : LevelOrder root visits) {t : KeptTree n} (hGrow : Grows visits t) :
    t.placements g ((centres g (subtreeWidths g visits) visits).get t.root) =
      t.nodes.map fun i => (i, (centres g (subtreeWidths g visits) visits).get i) := by
  induction hGrow with
  | @node v children hv hKept hGrow ih =>
    have hRow := h.map_subtreeWidths_grown (g := g) hKept hGrow
    have hCentres := h.map_centres (g := g) (subtreeWidths g visits) hv
    rw [hRow, KeptTree.rowWidth_subtreeWidths, ← hKept] at hCentres
    rw [KeptTree.placements, KeptTree.nodes_node, List.map_cons, KeptTree.root,
      rowPlacements_grown _ ih hCentres]

end LevelOrder

/-- Over the tree that a layout keeps, the width pass computes the width of every subtree and the
placement pass the centre of every node as the recursive definitions do. -/
theorem passes_eq_recursion {α : Type} [Coordinate α] (g : Geometry α) {ids : Vector String n}
    {edges : List Edge} {tree : SpanningTree n} (h : spanningTree ids edges = .ok tree) :
    ∃ whole : KeptTree n, whole.root = tree.root ∧ Grows tree.visits whole ∧
      (∀ i, i ∈ whole.nodes ↔ i ∈ tree.visits.map Visit.node) ∧
      (∀ t ∈ whole.subtrees, (tree.widths g).get t.root = t.subtreeWidth g) ∧
      whole.placements g g.originX = whole.nodes.map fun i => (i, (tree.centres g).get i) := by
  have hOrder := SpanningTree.levelOrder h
  obtain ⟨v, hv, hNode, -⟩ := hOrder.exists_root_visit
  obtain ⟨whole, hGrow, hRoot⟩ := hOrder.exists_grown v hv
  rw [hNode] at hRoot
  refine ⟨whole, hRoot, hGrow, hOrder.mem_nodes_iff hGrow hRoot, ?_, ?_⟩
  · intro t ht
    exact hOrder.get_subtreeWidths_grown (hGrow.subtree t ht)
  · have hOrigin : (tree.centres g).get tree.root = g.originX := hOrder.get_centres_root _
    have hPlaced := hOrder.placements_grown (g := g) hGrow
    rw [hRoot] at hPlaced
    rw [← hOrigin]
    exact hPlaced

/-- Lengths that are no numbers, and a graph with two parents and a cycle. -/
theorem passes_eq_recursion_unmeasured :
    ∃ (tree : SpanningTree 4) (whole : KeptTree 4),
      spanningTree #v["a", "b", "c", "d"] [.between "a" "b", .between "a" "c", .between "c" "b",
        .between "b" "d", .between "d" "b"] = .ok tree ∧ whole.root = tree.root ∧
      (∀ t ∈ whole.subtrees,
        (tree.widths (⟨0 / 0, 40, 1 / 0, 80, 0⟩ : Geometry Float)).get t.root =
          t.subtreeWidth ⟨0 / 0, 40, 1 / 0, 80, 0⟩) ∧
      whole.placements (⟨0 / 0, 40, 1 / 0, 80, 0⟩ : Geometry Float) 0 =
        whole.nodes.map fun i =>
          (i, (tree.centres (⟨0 / 0, 40, 1 / 0, 80, 0⟩ : Geometry Float)).get i) := by
  obtain ⟨tree, hTree⟩ := exists_tree_iff.mpr (by decide : (roots (resolve
    #v["a", "b", "c", "d"] [.between "a" "b", .between "a" "c", .between "c" "b",
      .between "b" "d", .between "d" "b"])).length = 1)
  obtain ⟨whole, hRoot, -, -, hWidths, hCentres⟩ :=
    passes_eq_recursion (⟨0 / 0, 40, 1 / 0, 80, 0⟩ : Geometry Float) hTree
  exact ⟨tree, whole, hTree, hRoot, hWidths, hCentres⟩

end SyntaxDrawing.Layout
