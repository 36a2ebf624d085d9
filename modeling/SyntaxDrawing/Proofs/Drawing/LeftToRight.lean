import SyntaxDrawing.Proofs.Drawing
import SyntaxDrawing.Proofs.Graph.Description
import SyntaxDrawing.Proofs.Layout.Separation
import SyntaxDrawing.Proofs.Tree.Precedence

/-!
# Levels are drawn in document order

The edges of a built graph stand in the order of their targets, so every node keeps its children in
document order. Two nodes of one level hang below different children of one node, and what hangs
below the earlier child is both earlier in the document and further to the left.
-/

namespace SyntaxDrawing

open Coordinate Layout Relation

namespace Layout

theorem pairwise_target_resolve {α : Type} [Coordinate α] {nodes : List (Node α)}
    {edges : List Edge} (hNodup : (nodes.map Node.id).Nodup)
    (hTargets : (edges.map Edge.target).Sublist (nodes.map Node.id)) :
    (resolve (nodeIds nodes) edges).Pairwise fun l m => l.target < m.target := by
  have hInjective := nodeIds_injective hNodup
  have hIds : (nodes.map Node.id).Pairwise fun s s' => ∀ i j : Fin nodes.length,
      (nodeIds nodes).get i = s → (nodeIds nodes).get j = s' → i < j := by
    rw [List.pairwise_map, List.pairwise_iff_getElem]
    intro a b ha hb hLt i j hi hj
    have hA : i = ⟨a, ha⟩ := hInjective (hi.trans (get_nodeIds nodes ⟨a, ha⟩).symm)
    have hB : j = ⟨b, hb⟩ := hInjective (hj.trans (get_nodeIds nodes ⟨b, hb⟩).symm)
    rw [hA, hB]
    exact hLt
  have hEdges := hIds.sublist hTargets
  rw [List.pairwise_map] at hEdges
  rw [resolve, List.pairwise_filterMap]
  refine hEdges.imp ?_
  intro e e' hOrder l hl m hm
  split at hl
  · rename_i s i _ hi
    cases hl
    split at hm
    · rename_i s' j _ hj
      cases hm
      exact hOrder i j (getElem?_lastHolders_eq_some_iff.mp hi).1
        (getElem?_lastHolders_eq_some_iff.mp hj).1
    · cases hm
  · cases hl

theorem kept_increasing {n : Nat} {links : List (Link n)} {root : Fin n}
    (hLinks : links.Pairwise fun l m => l.target < m.target) {v : Visit n}
    (hv : v ∈ visits (childTable links).get root) : v.kept.Pairwise (· < ·) := by
  have hSub := (visits_offspring _ root hv).1
  rw [get_childTable] at hSub
  exact (List.pairwise_map.mpr (hLinks.filter _)).sublist hSub

/-- What hangs below the earlier of two children stands a gap to the left of what hangs below the
later one. -/
theorem SpanningTree.centre_add_le {n : Nat} {g : Geometry ℚ} (hg : g.Positive)
    {tree : SpanningTree n} (h : LevelOrder tree.root tree.visits) {p u v : Visit n}
    (hp : p ∈ tree.visits) (hu : u ∈ tree.visits) (hv : v ∈ tree.visits)
    (hKept : p.kept.Pairwise (· < ·)) {c d : Fin n} (hc : c ∈ p.kept) (hd : d ∈ p.kept)
    (hcd : c < d) (hcu : ReflTransGen (Keeps tree.visits) c u.node)
    (hdv : ReflTransGen (Keeps tree.visits) d v.node) :
    (tree.centres g).get u.node + (g.nodeWidth + g.horizontalGap) ≤
      (tree.centres g).get v.node := by
  have hRow : (tree.extent g c).right + g.horizontalGap ≤ (tree.extent g d).left := by
    obtain ⟨i, hi, rfl⟩ := List.getElem_of_mem hc
    obtain ⟨j, hj, rfl⟩ := List.getElem_of_mem hd
    have hIncreasing := List.pairwise_iff_getElem.mp hKept
    have hij : i < j := by
      rcases Nat.lt_trichotomy i j with hLt | rfl | hGt
      · exact hLt
      · exact absurd hcd (lt_irrefl _)
      · exact absurd hcd (hIncreasing j i hj hi hGt).asymm
    exact List.pairwise_iff_getElem.mp (kept_row hg h hp).2 i j hi hj hij
  have hRight := (extent_inside_of_reaches hg h hcu).2
  have hLeft := (extent_inside_of_reaches hg h hdv).1
  have hWidth := nodeWidth_le_width (g := g) h hu
  have hWidth' := nodeWidth_le_width (g := g) h hv
  simp only [extent, Extent.around] at hRow hRight hLeft
  linarith

end Layout

variable {policy : Policy} {rows : List Row} {t : Tree}

/-- In an outline, what the walk finds below a node is what its occurrence holds. -/
theorem holds_of_reaches {tree : SpanningTree (nodesOfRows ℚ rows).length}
    (hRows : rows.map Row.occurrence = t.emitted policy) (h : Linked policy rows)
    (hVisits : tree.visits = visits (childTable (linksOfRows ℚ rows)).get tree.root)
    {i j : Fin (nodesOfRows ℚ rows).length} (hReach : ReflTransGen (Keeps tree.visits) i j)
    {r s : Row} (hr : rows[i.val]? = some r) (hs : rows[j.val]? = some s) :
    r.occurrence.Holds s.occurrence := by
  induction hReach generalizing s with
  | refl =>
    rw [hr] at hs
    cases hs
    exact .self
  | @tail k j _ hKeeps ih =>
    obtain ⟨v, hv, rfl, hj⟩ := hKeeps
    rw [hVisits] at hv
    have hChild := (visits_offspring _ _ hv).1.subset hj
    rw [get_childTable] at hChild
    obtain ⟨l, hl, rfl⟩ := List.mem_map.mp hChild
    obtain ⟨hLink, hSource⟩ := List.mem_filter.mp hl
    obtain ⟨s', hs', hOwner⟩ := mem_linksOfRows_iff.mp hLink
    rw [hs] at hs'
    cases hs'
    obtain ⟨q, hq, hNearest⟩ := h.exists_owner hs hOwner
    rw [of_decide_eq_true hSource] at hq
    have hMem : s.occurrence ∈ t.emitted policy :=
      hRows ▸ List.mem_map_of_mem (List.mem_of_getElem? hs)
    have hAbove := Occurrence.holds_of_mem_around (Tree.mem_emitted_iff.mp hMem).1
      (List.mem_of_find?_eq_some hNearest)
    exact (ih hq).trans hAbove

theorem before_of_lt (hRows : rows.map Row.occurrence = t.emitted policy) {i j : Nat} (hij : i < j)
    {r s : Row} (hr : rows[i]? = some r) (hs : rows[j]? = some s) :
    r.occurrence.Before s.occurrence := by
  obtain ⟨hi, rfl⟩ := List.getElem?_eq_some_iff.mp hr
  obtain ⟨hj, rfl⟩ := List.getElem?_eq_some_iff.mp hs
  have hOrder := t.pairwise_emitted policy
  rw [← hRows, List.pairwise_map, List.pairwise_iff_getElem] at hOrder
  exact hOrder i j hi hj hij

theorem exists_row_of_fin (i : Fin (nodesOfRows ℚ rows).length) : ∃ r, rows[i.val]? = some r :=
  have hi : i.val < rows.length := length_nodesOfRows (α := ℚ) rows ▸ i.isLt
  ⟨rows[i.val], List.getElem?_eq_getElem hi⟩

/-- Children that a node keeps have document order with all that is below them. -/
theorem lt_of_branches {tree : SpanningTree (nodesOfRows ℚ rows).length}
    (hRows : rows.map Row.occurrence = t.emitted policy) (h : Linked policy rows)
    (hVisits : tree.visits = visits (childTable (linksOfRows ℚ rows)).get tree.root)
    {c d i j : Fin (nodesOfRows ℚ rows).length} (hne : c ≠ d)
    (hLevel : levelOfRow policy rows c.val = levelOfRow policy rows d.val)
    (hci : ReflTransGen (Keeps tree.visits) c i) (hdj : ReflTransGen (Keeps tree.visits) d j)
    (hij : i < j) : c < d := by
  obtain ⟨r, hr⟩ := exists_row_of_fin c
  obtain ⟨s, hs⟩ := exists_row_of_fin d
  obtain ⟨r', hr'⟩ := exists_row_of_fin i
  obtain ⟨s', hs'⟩ := exists_row_of_fin j
  rcases lt_or_gt_of_ne hne with hLt | hGt
  · exact hLt
  · have hBefore := before_of_lt hRows hGt hs hr
    have hMem : ∀ {k : Nat} {q : Row}, rows[k]? = some q → q.occurrence ∈ t.emitted policy :=
      fun hq => hRows ▸ List.mem_map_of_mem (List.mem_of_getElem? hq)
    obtain ⟨hTop, hEmits⟩ := Tree.mem_emitted_iff.mp (hMem hs)
    have hNot : ¬ s.occurrence.Holds r.occurrence := by
      intro hHolds
      rcases hHolds.level_lt hEmits with hSame | hLess
      · exact Occurrence.before_irrefl _ (hSame ▸ hBefore)
      · simp only [levelOfRow, hr, hs, Option.elim_some] at hLevel
        omega
    have hOutside := hTop.before (Tree.mem_emitted_iff.mp (hMem hr)).1 hBefore hNot
      (holds_of_reaches hRows h hVisits hdj hs hs') (holds_of_reaches hRows h hVisits hci hr hr')
    exact absurd (before_of_lt hRows hij hr' hs') hOutside.asymm

/-- The places of a drawing with one top. -/
theorem exists_ordered_places {g : Geometry ℚ} (hg : g.Positive)
    (hRows : rows.map Row.occurrence = t.emitted policy) (h : Linked policy rows)
    (hTop : (t.tops policy).length = 1) :
    ∃ x : Fin (nodesOfRows ℚ rows).length → ℚ,
      layout g (nodesOfRows ℚ rows) (Graph.ofRows none rows : Graph ℚ).edges =
        movedNodes (fun i => ⟨x i, (levelOfRow policy rows i.val : ℚ) * g.levelHeight⟩) ∧
      ∀ i j, i < j → levelOfRow policy rows i.val = levelOfRow policy rows j.val →
        x i + (g.nodeWidth + g.horizontalGap) ≤ x j := by
  have hGraded := linksOfRows_graded (α := ℚ) h
  have hOne := (length_filter_levelOfRow (α := ℚ) hRows).trans hTop
  rw [← hGraded.roots_eq] at hOne
  obtain ⟨tree, hTree⟩ := exists_tree_iff.mpr hOne
  obtain ⟨hRoot, hVisits⟩ := spanningTree_eq_ok_iff.mp hTree
  have hOrder := SpanningTree.levelOrder hTree
  obtain ⟨summary, hArrange⟩ := arrange_of_tree (g := g) hTree
  have hVisit : ∀ i, ∃ v ∈ tree.visits, v.node = i ∧ v.depth = levelOfRow policy rows i.val := by
    intro i
    obtain ⟨v, hv, rfl⟩ := hGraded.exists_visit hRoot i
    exact ⟨v, hVisits ▸ hv, rfl, hGraded.depth_eq hRoot v hv⟩
  refine ⟨(tree.centres g).get, ?_, ?_⟩
  · rw [layout, hArrange]
    apply congrArg List.ofFn
    funext i
    obtain ⟨v, hv, rfl, hDepth⟩ := hVisit i
    have hMoved := SpanningTree.moved_visit (g := g) hOrder hv
    rw [hDepth] at hMoved
    exact hMoved
  · intro i j hij hLevel
    obtain ⟨u, hu, rfl, hDepth⟩ := hVisit i
    obtain ⟨v, hv, rfl, hDepth'⟩ := hVisit j
    have huv : ¬ Above tree.visits u.node v.node := by
      intro hAbove
      have hLt := hOrder.depth_lt_of_above hu hv hAbove
      omega
    have hvu : ¬ Above tree.visits v.node u.node := by
      intro hAbove
      have hLt := hOrder.depth_lt_of_above hv hu hAbove
      omega
    obtain ⟨p, hp, c, hc, d, hd, hne, hcu, hdv⟩ :=
      hOrder.exists_branching hu hv hij.ne huv hvu
    have hChild : ∀ e ∈ p.kept, levelOfRow policy rows e.val = p.depth + 1 := by
      intro e he
      obtain ⟨w, hw, rfl, hSucc⟩ := hOrder.exists_child_visit hp he
      obtain ⟨w', hw', hNode, hDepth⟩ := hVisit w.node
      rw [hOrder.visit_eq hw' hw hNode] at hDepth
      omega
    have hcd := lt_of_branches hRows h hVisits hne ((hChild c hc).trans (hChild d hd).symm)
      hcu hdv hij
    have hForest : (Graph.ofRows none rows : Graph ℚ).OrderedForest := ofRows_orderedForest h
    have hKept := kept_increasing (pairwise_target_resolve hForest.nodup hForest.targets)
      (hVisits ▸ hp)
    exact SpanningTree.centre_add_le hg hOrder hp hu hv hKept hc hd hcd hcu hdv

/-- The nodes that no edge leads to are those of the tops of the document. -/
theorem length_tops_described (α : Type) [Coordinate α] (policy : Policy) (t : Tree) :
    (Graph.build policy t : Graph α).tops.length = (t.tops policy).length := by
  obtain ⟨rows, hRows, hLinked, hGraph⟩ := exists_outline (α := α) policy none t
  have hBuild : Graph.build policy t = (Graph.ofRows none rows : Graph α) := hGraph
  have hForest : (Graph.ofRows none rows : Graph α).OrderedForest := ofRows_orderedForest hLinked
  have hCount := hForest.tops
  rw [← hBuild] at hCount
  have hDescribed : Graph.build policy t = (Graph.described policy none t : Graph α) :=
    visit_graph_eq_described policy none t
  have hEdges : (Graph.build policy t : Graph α).edges.length =
      (t.emitted policy).countP fun p => ¬ p.level policy = 0 := by
    rw [hDescribed, Graph.described, List.length_filterMap_eq_countP]
    apply List.countP_congr
    intro p _
    rw [decide_eq_true_eq, Occurrence.level_eq_zero_iff]
    cases p.nearest? policy <;> simp
  have hNodes : (Graph.build policy t : Graph α).nodes.length = (t.emitted policy).length := by
    rw [hDescribed, Graph.described, List.length_map]
  have hSplit := List.length_eq_countP_add_countP (l := t.emitted policy)
    (fun p => decide (p.level policy = 0))
  rw [Tree.tops, ← List.countP_eq_length_filter]
  simp only [decide_not, Bool.decide_eq_true] at hEdges hSplit
  omega

/-- A drawing with a single root has every level in document order: of two nodes at one height the
earlier one stands to the left of the later, with room for a box and a gap. -/
theorem drawJson_leftToRight (policy : Policy) {g : Geometry ℚ} (hg : g.Positive)
    (document : Json.Value)
    (hRoot : (Graph.build policy (Tree.ofJson document) : Graph ℚ).tops.length = 1) :
    (drawJson policy g document).nodes.map (·.moveTo .origin) =
      (Graph.build policy (Tree.ofJson document)).nodes ∧
    (drawJson policy g document).nodes.Pairwise (fun u v => u.position.y = v.position.y →
      u.position.x + (g.nodeWidth + g.horizontalGap) ≤ v.position.x) ∧
    ∀ (i j : Nat) (u v : Node ℚ), (drawJson policy g document).nodes[i]? = some u →
      (drawJson policy g document).nodes[j]? = some v → u.position.y = v.position.y →
        (i < j ↔ u.position.x < v.position.x) := by
  obtain ⟨rows, hRows, hLinked, hGraph⟩ := exists_outline (α := ℚ) policy none (.ofJson document)
  have hBuild : Graph.build policy (.ofJson document) = (Graph.ofRows none rows : Graph ℚ) := hGraph
  rw [length_tops_described] at hRoot
  obtain ⟨x, hLayout, hOrder⟩ := exists_ordered_places hg hRows hLinked hRoot
  have hNodes : (drawJson policy g document).nodes = movedNodes
      (fun i => ⟨x i, (levelOfRow policy rows i.val : ℚ) * g.levelHeight⟩) := by
    rw [← hLayout, nodesOfRows, ← hBuild]
    rfl
  have hHeight : g.levelHeight ≠ 0 := (add_pos hg.nodeHeight hg.verticalGap).ne'
  have hPairwise : (drawJson policy g document).nodes.Pairwise fun u v =>
      u.position.y = v.position.y →
        u.position.x + (g.nodeWidth + g.horizontalGap) ≤ v.position.x := by
    rw [hNodes, List.pairwise_ofFn]
    intro i j hij hLevel
    have hSame : (levelOfRow policy rows i.val : ℚ) = levelOfRow policy rows j.val :=
      mul_right_cancel₀ hHeight hLevel
    exact hOrder i j hij (Nat.cast_injective hSame)
  have hRoom : 0 < g.nodeWidth + g.horizontalGap := add_pos hg.nodeWidth hg.horizontalGap
  refine ⟨?_, hPairwise, ?_⟩
  · rw [hNodes, hBuild]
    exact map_moveTo_origin_movedNodes _
  intro i j u v hu hv hLevel
  obtain ⟨hi, rfl⟩ := List.getElem?_eq_some_iff.mp hu
  obtain ⟨hj, rfl⟩ := List.getElem?_eq_some_iff.mp hv
  have hApart := List.pairwise_iff_getElem.mp hPairwise
  constructor
  · intro hLt
    have hLeft := hApart i j hi hj hLt hLevel
    linarith
  · intro hLess
    rcases Nat.lt_trichotomy i j with hLt | rfl | hGt
    · exact hLt
    · exact absurd hLess (lt_irrefl _)
    · have hLeft := hApart j i hj hi hGt hLevel.symm
      linarith

def forkedList : Json.Value :=
  .object [("tree", .array [.object [("type", .string "a"), ("left", .array [])],
    .object [("inner", .array [.array []])], .object [("type", .string "b")]])]

theorem drawJson_leftToRight_forkedList :
    (Geometry.standard : Geometry ℚ).Positive ∧
      (Graph.build .skip (Tree.ofJson forkedList) : Graph ℚ).tops.length = 1 ∧
      (drawJson .skip (.standard : Geometry ℚ) forkedList).nodes.Pairwise
        (fun u v => u.position.y = v.position.y → u.position.x + (120 + 50) ≤ v.position.x) := by
  have hRoot : (Graph.build .skip (Tree.ofJson forkedList) : Graph ℚ).tops.length = 1 := by
    decide +kernel
  exact ⟨Geometry.standard_positive, hRoot,
    (drawJson_leftToRight .skip Geometry.standard_positive forkedList hRoot).2.1⟩

end SyntaxDrawing
