import SyntaxDrawing.Proofs.Layout.Ancestry
import SyntaxDrawing.Proofs.Layout.Arrangement
import SyntaxDrawing.Proofs.Layout.Rational
import Mathlib.Data.Set.Prod
import Mathlib.Order.Interval.Set.Basic
import Mathlib.Algebra.Order.Ring.Abs
import Mathlib.Order.CompletePartialOrder

/-!
# Boxes never overlap

Each subtree takes the stretch of its width around its centre. A stretch holds the stretches of all
that is below, and two subtrees of which none holds the other stand a gap apart. So no two boxes of
a layout meet.
-/

namespace SyntaxDrawing.Layout

open Relation

structure Extent where
  left : ℚ
  right : ℚ

namespace Extent

def around (x width : ℚ) : Extent :=
  ⟨x - width / 2, x + width / 2⟩

def Inside (s t : Extent) : Prop :=
  t.left ≤ s.left ∧ s.right ≤ t.right

/-- One stretch ends at least a gap before the other begins. -/
def Apart (gap : ℚ) (s t : Extent) : Prop :=
  s.right + gap ≤ t.left ∨ t.right + gap ≤ s.left

theorem Inside.refl (s : Extent) : s.Inside s :=
  ⟨le_refl _, le_refl _⟩

theorem Inside.trans {s t r : Extent} (hst : s.Inside t) (htr : t.Inside r) : s.Inside r :=
  ⟨htr.1.trans hst.1, hst.2.trans htr.2⟩

theorem Apart.mono {gap : ℚ} {s s' t t' : Extent} (h : Apart gap s t) (hs : s'.Inside s)
    (ht : t'.Inside t) : Apart gap s' t' := by
  obtain ⟨hsLeft, hsRight⟩ := hs
  obtain ⟨htLeft, htRight⟩ := ht
  rcases h with h | h
  · left
    linarith
  · right
    linarith

theorem le_abs_of_apart {gap x y w w' : ℚ} (h : Apart gap (around x w) (around y w')) :
    w / 2 + w' / 2 + gap ≤ |x - y| := by
  simp only [Apart, around] at h
  rcases h with h | h
  · rw [abs_sub_comm]
    exact le_trans (by linarith) (le_abs_self (y - x))
  · exact le_trans (by linarith) (le_abs_self (x - y))

end Extent

/-- The box of a node: it stands around the node's centre and begins at the node's level. -/
def Geometry.box (g : Geometry ℚ) (p : Position ℚ) : Set (ℚ × ℚ) :=
  Set.Icc (p.x - g.nodeWidth / 2) (p.x + g.nodeWidth / 2) ×ˢ Set.Icc p.y (p.y + g.nodeHeight)

theorem disjoint_box_of_lt_abs_x {g : Geometry ℚ} {p q : Position ℚ}
    (h : g.nodeWidth < |p.x - q.x|) : Disjoint (g.box p) (g.box q) := by
  rw [Set.disjoint_left]
  rintro ⟨x, y⟩ ⟨hp, _⟩ ⟨hq, _⟩
  simp only [Set.mem_Icc] at hp hq
  rcases lt_abs.mp h with h | h <;> linarith [hp.1, hp.2, hq.1, hq.2]

theorem disjoint_box_of_lt_abs_y {g : Geometry ℚ} {p q : Position ℚ}
    (h : g.nodeHeight < |p.y - q.y|) : Disjoint (g.box p) (g.box q) := by
  rw [Set.disjoint_left]
  rintro ⟨x, y⟩ ⟨_, hp⟩ ⟨_, hq⟩
  simp only [Set.mem_Icc] at hp hq
  rcases lt_abs.mp h with h | h <;> linarith [hp.1, hp.2, hq.1, hq.2]

namespace SpanningTree

variable {n : Nat} {g : Geometry ℚ} {tree : SpanningTree n}

def extent (g : Geometry ℚ) (tree : SpanningTree n) (i : Fin n) : Extent :=
  .around ((tree.centres g).get i) ((tree.widths g).get i)

theorem nodeWidth_le_width (h : LevelOrder tree.root tree.visits) {v : Visit n}
    (hv : v ∈ tree.visits) : g.nodeWidth ≤ (tree.widths g).get v.node := by
  rw [widths, h.get_subtreeWidths hv]
  split
  · exact le_refl _
  · exact le_max_left _ _

theorem row_le_width (hg : g.Positive) (h : LevelOrder tree.root tree.visits) {v : Visit n}
    (hv : v ∈ tree.visits) :
    rowWidth g.horizontalGap (v.kept.map (tree.widths g).get) ≤ (tree.widths g).get v.node := by
  have hWidth := h.get_subtreeWidths (g := g) hv
  rw [widths, hWidth]
  split
  · rename_i hKept
    rw [List.isEmpty_iff.mp hKept, List.map_nil, rowWidth_nil]
    exact hg.nodeWidth.le
  · exact le_max_right _ _

/-- The row of children below a visit, in order and within the width of the subtree. -/
theorem kept_row (hg : g.Positive) (h : LevelOrder tree.root tree.visits) {v : Visit n}
    (hv : v ∈ tree.visits) :
    (∀ c ∈ v.kept, (tree.extent g c).Inside (tree.extent g v.node)) ∧
      v.kept.Pairwise fun c d =>
        (tree.extent g c).right + g.horizontalGap ≤ (tree.extent g d).left := by
  have hWidths : ∀ c ∈ v.kept, 0 ≤ (tree.widths g).get c := by
    intro c hc
    obtain ⟨u, hu, rfl, _⟩ := h.exists_child_visit hv hc
    exact hg.nodeWidth.le.trans (nodeWidth_le_width h hu)
  obtain ⟨hInside, hApart⟩ := rowCentres_row hg.horizontalGap.le hWidths
    (h.map_centres (tree.widths g) hv)
  refine ⟨?_, hApart⟩
  intro c hc
  obtain ⟨hLeft, hRight⟩ := hInside c hc
  have hRow := row_le_width hg h hv
  have hLeft : (tree.centres g).get v.node -
      rowWidth g.horizontalGap (v.kept.map (tree.widths g).get) / 2 ≤
      (tree.centres g).get c - (tree.widths g).get c / 2 := hLeft
  have hRight : (tree.centres g).get c + (tree.widths g).get c / 2 ≤ (tree.centres g).get v.node -
      rowWidth g.horizontalGap (v.kept.map (tree.widths g).get) / 2 +
      rowWidth g.horizontalGap (v.kept.map (tree.widths g).get) := hRight
  simp only [extent, Extent.around, Extent.Inside]
  constructor <;> linarith

theorem extent_inside_of_reaches (hg : g.Positive) (h : LevelOrder tree.root tree.visits)
    {i j : Fin n} (hReach : ReflTransGen (Keeps tree.visits) i j) :
    (tree.extent g j).Inside (tree.extent g i) := by
  induction hReach with
  | refl => exact Extent.Inside.refl _
  | tail _ hKeeps ih =>
    obtain ⟨v, hv, rfl, hc⟩ := hKeeps
    exact ((kept_row hg h hv).1 _ hc).trans ih

theorem extent_apart (hg : g.Positive) (h : LevelOrder tree.root tree.visits) {u v : Visit n}
    (hu : u ∈ tree.visits) (hv : v ∈ tree.visits) (hne : u.node ≠ v.node)
    (huv : ¬ Above tree.visits u.node v.node) (hvu : ¬ Above tree.visits v.node u.node) :
    Extent.Apart g.horizontalGap (tree.extent g u.node) (tree.extent g v.node) := by
  obtain ⟨p, hp, c, hc, d, hd, hcd, hcu, hdv⟩ := h.exists_branching hu hv hne huv hvu
  have hRow : Extent.Apart g.horizontalGap (tree.extent g c) (tree.extent g d) := by
    have hKept : p.kept.Pairwise fun i j =>
        Extent.Apart g.horizontalGap (tree.extent g i) (tree.extent g j) :=
      (kept_row hg h hp).2.imp Or.inl
    have : Std.Symm fun i j => Extent.Apart g.horizontalGap (tree.extent g i) (tree.extent g j) :=
      ⟨fun _ _ => Or.symm⟩
    exact hKept.forall hc hd hcd
  exact hRow.mono (extent_inside_of_reaches hg h hcu) (extent_inside_of_reaches hg h hdv)

/-- On one level no node is above another. -/
theorem le_abs_centre_sub (hg : g.Positive) (h : LevelOrder tree.root tree.visits) {u v : Visit n}
    (hu : u ∈ tree.visits) (hv : v ∈ tree.visits) (hne : u.node ≠ v.node)
    (hDepth : u.depth = v.depth) :
    g.nodeWidth + g.horizontalGap ≤
      |(tree.centres g).get u.node - (tree.centres g).get v.node| := by
  have huv : ¬ Above tree.visits u.node v.node := by
    intro hAbove
    have hlt := h.depth_lt_of_above hu hv hAbove
    omega
  have hvu : ¬ Above tree.visits v.node u.node := by
    intro hAbove
    have hlt := h.depth_lt_of_above hv hu hAbove
    omega
  have hApart := Extent.le_abs_of_apart (extent_apart hg h hu hv hne huv hvu)
  have hWidth := nodeWidth_le_width (g := g) h hu
  have hWidth' := nodeWidth_le_width (g := g) h hv
  linarith

end SpanningTree

theorem le_abs_level_sub {g : Geometry ℚ} (hg : g.Positive) {d e : Nat} (hne : d ≠ e) :
    g.nodeHeight + g.verticalGap ≤ |(d : ℚ) * g.levelHeight - e * g.levelHeight| := by
  have hLevel : 0 < g.levelHeight := add_pos hg.nodeHeight hg.verticalGap
  have hStep : (1 : ℚ) ≤ |(d : ℚ) - e| := by
    have hInt : (1 : ℤ) ≤ |(d : ℤ) - e| := Int.one_le_abs (by omega)
    exact_mod_cast hInt
  calc
    g.nodeHeight + g.verticalGap = 1 * g.levelHeight := (one_mul _).symm
    _ ≤ |(d : ℚ) - e| * g.levelHeight := mul_le_mul_of_nonneg_right hStep hLevel.le
    _ = |(d : ℚ) * g.levelHeight - e * g.levelHeight| := by
      rw [← sub_mul, abs_mul, abs_of_pos hLevel]

def stretch {n : Nat} (g : Geometry ℚ) (tree : SpanningTree n) (place : Fin n → Position ℚ)
    (i : Fin n) : Extent :=
  .around (place i).x ((tree.widths g).get i)

/-- How the visited nodes stand to each other. -/
structure Separated {n : Nat} (g : Geometry ℚ) (tree : SpanningTree n)
    (place : Fin n → Position ℚ) : Prop where
  inside : ∀ u ∈ tree.visits, ∀ v ∈ tree.visits, Above tree.visits u.node v.node →
    (stretch g tree place v.node).Inside (stretch g tree place u.node)
  apart : ∀ u ∈ tree.visits, ∀ v ∈ tree.visits, u.node ≠ v.node →
    ¬ Above tree.visits u.node v.node → ¬ Above tree.visits v.node u.node →
      Extent.Apart g.horizontalGap (stretch g tree place u.node) (stretch g tree place v.node)
  level : ∀ u ∈ tree.visits, ∀ v ∈ tree.visits, u.node ≠ v.node → u.depth = v.depth →
    g.nodeWidth + g.horizontalGap ≤ |(place u.node).x - (place v.node).x|
  levels : ∀ u ∈ tree.visits, ∀ v ∈ tree.visits, u.depth ≠ v.depth →
    g.nodeHeight + g.verticalGap ≤ |(place u.node).y - (place v.node).y|
  boxes : ∀ u ∈ tree.visits, ∀ v ∈ tree.visits, u.node ≠ v.node →
    Disjoint (g.box (place u.node)) (g.box (place v.node))

theorem separated_of_places {n : Nat} {g : Geometry ℚ} (hg : g.Positive) {tree : SpanningTree n}
    (h : LevelOrder tree.root tree.visits) {place : Fin n → Position ℚ}
    (hPlace : ∀ v ∈ tree.visits,
      place v.node = ⟨(tree.centres g).get v.node, (v.depth : ℚ) * g.levelHeight⟩) :
    Separated g tree place := by
  have hStretch : ∀ v ∈ tree.visits, stretch g tree place v.node = tree.extent g v.node := by
    intro v hv
    rw [stretch, hPlace v hv]
    rfl
  have hLevel : ∀ u ∈ tree.visits, ∀ v ∈ tree.visits, u.node ≠ v.node → u.depth = v.depth →
      g.nodeWidth + g.horizontalGap ≤ |(place u.node).x - (place v.node).x| := by
    intro u hu v hv hne hDepth
    rw [hPlace u hu, hPlace v hv]
    exact SpanningTree.le_abs_centre_sub hg h hu hv hne hDepth
  have hLevels : ∀ u ∈ tree.visits, ∀ v ∈ tree.visits, u.depth ≠ v.depth →
      g.nodeHeight + g.verticalGap ≤ |(place u.node).y - (place v.node).y| := by
    intro u hu v hv hDepth
    rw [hPlace u hu, hPlace v hv]
    exact le_abs_level_sub hg hDepth
  refine ⟨?_, ?_, hLevel, hLevels, ?_⟩
  · intro u hu v hv hAbove
    rw [hStretch u hu, hStretch v hv]
    exact SpanningTree.extent_inside_of_reaches hg h hAbove.to_reflTransGen
  · intro u hu v hv hne huv hvu
    rw [hStretch u hu, hStretch v hv]
    exact SpanningTree.extent_apart hg h hu hv hne huv hvu
  · intro u hu v hv hne
    by_cases hDepth : u.depth = v.depth
    · apply disjoint_box_of_lt_abs_x
      exact (lt_add_of_pos_right _ hg.horizontalGap).trans_le (hLevel u hu v hv hne hDepth)
    · apply disjoint_box_of_lt_abs_y
      exact (lt_add_of_pos_right _ hg.verticalGap).trans_le (hLevels u hu v hv hDepth)

/-- No two boxes of a layout meet. -/
theorem arrange_separates {g : Geometry ℚ} (hg : g.Positive) {nodes : List (Node ℚ)}
    {edges : List Edge} {summary : Summary ℚ} {placed : List (Node ℚ)}
    (h : arrange g nodes edges = .ok (summary, placed)) :
    ∃ tree, spanningTree (nodeIds nodes) edges = .ok tree ∧
      ∃ place, placed.map Node.position = List.ofFn place ∧ Separated g tree place := by
  obtain ⟨tree, hTree, rfl⟩ := exists_tree_of_arrange h
  have hOrder := SpanningTree.levelOrder hTree
  refine ⟨tree, hTree, fun i => (tree.moved g nodes i).position, List.map_ofFn, ?_⟩
  apply separated_of_places hg hOrder
  intro v hv
  exact congrArg Node.position (SpanningTree.moved_visit hOrder hv)

def plainNodes (ids : List String) : List (Node ℚ) :=
  ids.map fun id => .ofSource id id (.scalar .null)

/-- A graph with a repeated edge, an unknown end and a cycle below the root. -/
def tangledEdges : List Edge :=
  [.between "a" "b", .between "a" "c", .between "a" "b", .between "b" "d", .between "d" "c",
    .between "d" "d", .between "d" "b", .between "z" "a"]

theorem exists_tangledTree :
    ∃ tree, spanningTree (nodeIds (plainNodes ["a", "b", "c", "d"])) tangledEdges = .ok tree :=
  exists_tree_iff.mpr (by decide)

theorem arrange_separates_tangled :
    (Geometry.standard : Geometry ℚ).Positive ∧ ∃ summary placed tree place,
      arrange .standard (plainNodes ["a", "b", "c", "d"]) tangledEdges = .ok (summary, placed) ∧
      spanningTree (nodeIds (plainNodes ["a", "b", "c", "d"])) tangledEdges = .ok tree ∧
      placed.map Node.position = List.ofFn place ∧ Separated .standard tree place := by
  obtain ⟨tree, hTree⟩ :=
    exists_tree_iff.mpr (by decide : (roots (resolve (nodeIds (plainNodes ["a", "b", "c", "d"]))
      tangledEdges)).length = 1)
  obtain ⟨summary, hArrange⟩ := arrange_of_tree (g := .standard) hTree
  obtain ⟨tree, hTree, place, hPlace, hSeparated⟩ :=
    arrange_separates Geometry.standard_positive hArrange
  exact ⟨Geometry.standard_positive, summary, _, tree, place, hArrange, hTree, hPlace, hSeparated⟩

end SyntaxDrawing.Layout
