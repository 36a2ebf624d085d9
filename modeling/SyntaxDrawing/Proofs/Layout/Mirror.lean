import SyntaxDrawing.Proofs.Graph.RootedTree
import SyntaxDrawing.Proofs.Layout.KeptTree
import SyntaxDrawing.Proofs.Layout.Outcome

/-!
# Mirrored layouts

Reversing the list of edges reverses every row. If no node has two edges to it, the walk visits the
same nodes on the same levels, in another order, and in exact arithmetic the drawing is reflected
about its root.
-/

namespace SyntaxDrawing

def Position.mirror (axis : ℚ) (p : Position ℚ) : Position ℚ :=
  ⟨2 * axis - p.x, p.y⟩

namespace Layout

open Coordinate Relation

variable {n : Nat}

def Visit.mirror (v : Visit n) : Visit n :=
  { v with kept := v.kept.reverse }

theorem resolve_reverse (ids : Vector String n) (edges : List Edge) :
    resolve ids edges.reverse = (resolve ids edges).reverse := by
  rw [resolve, resolve, List.filterMap_reverse]

theorem children_reverse (links : List (Link n)) (i : Fin n) :
    (childTable links.reverse).get i = ((childTable links).get i).reverse := by
  rw [get_childTable, get_childTable, List.filter_reverse, List.map_reverse]

theorem roots_reverse (links : List (Link n)) : roots links.reverse = roots links := by
  apply List.filter_congr
  intro i _
  rw [get_targetMarks, get_targetMarks, List.any_reverse]

/-- Which nodes are visited and how deep depends on who is whose child, not on the order. -/
theorem exists_visit_of_mem_iff {children children' : Fin n → List (Fin n)} {root : Fin n}
    (h : ∀ i j, j ∈ children' i ↔ j ∈ children i) {v : Visit n} (hv : v ∈ visits children root) :
    ∃ v' ∈ visits children' root, v'.node = v.node ∧ v'.depth = v.depth := by
  have hRelation : (fun i j => j ∈ children' i) = fun i j => j ∈ children i :=
    funext fun i => funext fun j => propext (h i j)
  have hReached := (visited_iff_reaches children root v.node).mp (List.mem_map_of_mem hv)
  rw [← hRelation, ← visited_iff_reaches] at hReached
  obtain ⟨v', hv', hNode⟩ := List.mem_map.mp hReached
  have hLeast' := isLeast_depth hv'
  rw [hRelation, hNode] at hLeast'
  exact ⟨v', hv', hNode, hLeast'.unique (isLeast_depth hv)⟩

theorem nodup_visits (children : Fin n → List (Fin n)) (root : Fin n) :
    (visits children root).Nodup :=
  (visits_levelOrder children root).nodup.of_map

theorem Visit.mirror_injective : Function.Injective (Visit.mirror (n := n)) := by
  rintro ⟨i, d, kept⟩ ⟨j, e, kept'⟩ h
  simpa [Visit.mirror] using h

/-- Over reversed links the walk makes the same visits, each with its row reversed. -/
theorem visits_mirrored {links : List (Link n)} {root : Fin n}
    (hOnce : (links.map Link.target).Nodup) (hRoot : root ∈ roots links) :
    (visits (childTable links.reverse).get root).Perm
      ((visits (childTable links).get root).map Visit.mirror) := by
  have hOnce' : (links.reverse.map Link.target).Nodup := by
    rwa [List.map_reverse, List.nodup_reverse]
  have hRoot' : root ∈ roots links.reverse := by rwa [roots_reverse]
  have hMem : ∀ i j, j ∈ (childTable links.reverse).get i ↔ j ∈ (childTable links).get i := by
    intro i j
    rw [children_reverse, List.mem_reverse]
  have hMirror : ∀ v ∈ visits (childTable links).get root,
      ∀ v' ∈ visits (childTable links.reverse).get root,
        v'.node = v.node → v'.depth = v.depth → v' = v.mirror := by
    rintro v hv v' hv' hNode hDepth
    have hKept := kept_eq_children hOnce hRoot hv
    have hKept' := kept_eq_children hOnce' hRoot' hv'
    rw [hNode, children_reverse, ← hKept] at hKept'
    obtain ⟨i, d, kept⟩ := v'
    cases hNode
    cases hDepth
    cases hKept'
    rfl
  rw [List.perm_ext_iff_of_nodup (nodup_visits _ root)
    ((nodup_visits _ root).map Visit.mirror_injective)]
  intro v'
  constructor
  · intro hv'
    obtain ⟨v, hv, hNode, hDepth⟩ := exists_visit_of_mem_iff (fun i j => (hMem i j).symm) hv'
    exact List.mem_map.mpr ⟨v, hv, (hMirror v hv v' hv' hNode.symm hDepth.symm).symm⟩
  · intro hv'
    obtain ⟨v, hv, rfl⟩ := List.mem_map.mp hv'
    obtain ⟨v', hv', hNode, hDepth⟩ := exists_visit_of_mem_iff hMem hv
    rwa [← hMirror v hv v' hv' hNode hDepth]

theorem rowWidth_reverse (gap : ℚ) (widths : List ℚ) :
    rowWidth gap widths.reverse = rowWidth gap widths := by
  rw [rowWidth_rat, rowWidth_rat, List.sum_reverse, List.length_reverse]

theorem rowCentres_append_singleton (gap left : ℚ) (widths : List ℚ) (w : ℚ) :
    rowCentres gap left (widths ++ [w]) =
      rowCentres gap left widths ++ [left + widths.sum + widths.length * gap + w / 2] := by
  induction widths generalizing left with
  | nil =>
    simp only [List.nil_append, rowCentres, List.sum_nil, List.length_nil, Nat.cast_zero,
      zero_mul, add_zero]
    rfl
  | cons w' rest ih =>
    rw [List.cons_append, rowCentres, rowCentres, ih, List.cons_append, List.sum_cons,
      List.length_cons, Nat.cast_succ]
    congr 3
    ring

/-- A reversed row from its left end is the mirrored row from its right end. -/
theorem rowCentres_reverse (gap left ends : ℚ) (widths : List ℚ) :
    rowCentres gap left widths.reverse =
      ((rowCentres gap (ends + gap - (left + widths.sum + widths.length * gap)) widths).map
        (ends - ·)).reverse := by
  induction widths with
  | nil => rfl
  | cons w rest ih =>
    have hNext : ends + gap - (left + (w :: rest).sum + (w :: rest).length * gap) + (w + gap) =
        ends + gap - (left + rest.sum + rest.length * gap) := by
      rw [List.sum_cons, List.length_cons, Nat.cast_succ]
      ring
    have hLast : left + rest.sum + rest.length * gap + w / 2 =
        ends - (ends + gap - (left + (w :: rest).sum + (w :: rest).length * gap) + w / 2) := by
      rw [List.sum_cons, List.length_cons, Nat.cast_succ]
      ring
    rw [List.reverse_cons, rowCentres_append_singleton, List.sum_reverse, List.length_reverse,
      ih, rowCentres, List.map_cons, List.reverse_cons, hNext, hLast]
    rfl

/-- A reversed row centred at one place mirrors the row centred at the opposite one. -/
theorem rowCentres_mirrored (gap axis x : ℚ) (widths : List ℚ) :
    rowCentres gap (2 * axis - x - rowWidth gap widths.reverse / 2) widths.reverse =
      ((rowCentres gap (x - rowWidth gap widths / 2) widths).map (2 * axis - ·)).reverse := by
  cases widths with
  | nil => rfl
  | cons w rest =>
    have hStart : 2 * axis + gap - (2 * axis - x - rowWidth gap (w :: rest) / 2 +
        (w :: rest).sum + (w :: rest).length * gap) = x - rowWidth gap (w :: rest) / 2 := by
      rw [rowWidth_rat, List.length_cons, Nat.add_sub_cancel, Nat.cast_succ]
      ring
    rw [rowCentres_reverse gap _ (2 * axis), rowWidth_reverse, hStart]

section

variable {g : Geometry ℚ} {root : Fin n} {visits visits' : List (Visit n)}

theorem get_subtreeWidths_mirrored (h : LevelOrder root visits) (h' : LevelOrder root visits')
    (hPerm : visits'.Perm (visits.map Visit.mirror)) {v : Visit n} (hv : v ∈ visits) :
    (subtreeWidths g visits').get v.node = (subtreeWidths g visits).get v.node := by
  obtain ⟨t, hGrow, hRoot⟩ := h.exists_grown v hv
  rw [← hRoot]
  clear hRoot hv
  induction hGrow with
  | @node v children hv hKept hGrow ih =>
    have hv' : v.mirror ∈ visits' := hPerm.mem_iff.mpr (List.mem_map_of_mem hv)
    have hRow : v.kept.map (subtreeWidths g visits').get =
        v.kept.map (subtreeWidths g visits).get := by
      rw [← hKept, List.map_map, List.map_map]
      exact List.map_congr_left ih
    have hWidth' := h'.get_subtreeWidths (g := g) hv'
    rw [Visit.mirror, List.isEmpty_reverse, List.map_reverse, hRow, rowWidth_reverse] at hWidth'
    exact hWidth'.trans (h.get_subtreeWidths hv).symm

theorem get_centres_mirrored (h : LevelOrder root visits) (h' : LevelOrder root visits')
    (hPerm : visits'.Perm (visits.map Visit.mirror)) {v : Visit n} (hv : v ∈ visits) :
    (centres g (subtreeWidths g visits') visits').get v.node =
      2 * g.originX - (centres g (subtreeWidths g visits) visits).get v.node := by
  refine h.induction (P := fun v => (centres g (subtreeWidths g visits') visits').get v.node =
    2 * g.originX - (centres g (subtreeWidths g visits) visits).get v.node) ?_ ?_ v hv
  · intro u _ hNode _
    rw [hNode, h.get_centres_root, h'.get_centres_root]
    ring
  · intro u hu hCentre w _ hKept _
    have hu' : u.mirror ∈ visits' := hPerm.mem_iff.mpr (List.mem_map_of_mem hu)
    have hWidths : u.mirror.kept.map (subtreeWidths g visits').get =
        (u.kept.map (subtreeWidths g visits).get).reverse := by
      rw [Visit.mirror, List.map_reverse]
      congr 1
      apply List.map_congr_left
      intro c hc
      obtain ⟨x, hx, rfl, -⟩ := h.exists_child_visit hu hc
      exact get_subtreeWidths_mirrored h h' hPerm hx
    have hRow := h.map_centres (g := g) (subtreeWidths g visits) hu
    have hRow' := h'.map_centres (g := g) (subtreeWidths g visits') hu'
    have hNode : u.mirror.node = u.node := rfl
    rw [hWidths, hNode, hCentre, ofCount_rat, Nat.cast_ofNat, rowCentres_mirrored] at hRow'
    rw [ofCount_rat, Nat.cast_ofNat] at hRow
    rw [← hRow, Visit.mirror, List.map_reverse, List.map_map] at hRow'
    exact List.map_inj_left.mp (List.reverse_injective hRow') w.node hKept

theorem get_positions_mirrored (h : LevelOrder root visits) (h' : LevelOrder root visits')
    (hPerm : visits'.Perm (visits.map Visit.mirror)) (i : Fin n) :
    (positions g (centres g (subtreeWidths g visits') visits') visits').get i =
      ((positions g (centres g (subtreeWidths g visits) visits) visits).get i).map
        (Position.mirror g.originX) := by
  by_cases hi : i ∈ visits.map Visit.node
  · obtain ⟨v, hv, rfl⟩ := List.mem_map.mp hi
    have hv' : v.mirror ∈ visits' := hPerm.mem_iff.mpr (List.mem_map_of_mem hv)
    rw [get_positions _ h.nodup hv, Option.map_some, Position.mirror,
      ← get_centres_mirrored h h' hPerm hv]
    exact get_positions (v := v.mirror) _ h'.nodup hv'
  · have hNodes := hPerm.map Visit.node
    rw [List.map_map] at hNodes
    have hi' : i ∉ visits'.map Visit.node := by
      rw [hNodes.mem_iff]
      exact hi
    rw [get_positions_of_notMem _ hi, get_positions_of_notMem _ hi', Option.map_none]

theorem depth_mirrored (hPerm : visits'.Perm (visits.map Visit.mirror)) :
    visits'.foldl (fun deepest v => max deepest v.depth) 0 =
      visits.foldl (fun deepest v => max deepest v.depth) 0 := by
  have hMax : RightCommutative fun (deepest : Nat) (v : Visit n) => max deepest v.depth :=
    ⟨fun d u v => by omega⟩
  rw [hPerm.foldl_eq, List.foldl_map]
  rfl

end

theorem spanningTree_reverse {ids : Vector String n} {edges : List Edge}
    (hOnce : ((resolve ids edges).map Link.target).Nodup) :
    (∀ f, spanningTree ids edges = .error f → spanningTree ids edges.reverse = .error f) ∧
    ∀ tree, spanningTree ids edges = .ok tree →
      ∃ visits', visits'.Perm (tree.visits.map Visit.mirror) ∧
        spanningTree ids edges.reverse = .ok ⟨tree.root, visits'⟩ := by
  have hRoots := roots_reverse (resolve ids edges)
  constructor
  · intro f h
    have hSole : soleRoot (resolve ids edges).reverse = soleRoot (resolve ids edges) := by
      rw [soleRoot, soleRoot, hRoots]
    rw [spanningTree, resolve_reverse, hSole]
    rw [spanningTree] at h
    cases hSome : soleRoot (resolve ids edges) with
    | error f' =>
      rw [hSome] at h
      exact h
    | ok root =>
      rw [hSome] at h
      cases h
  · intro tree h
    obtain ⟨hRoot, hVisits⟩ := spanningTree_eq_ok_iff.mp h
    refine ⟨visits (childTable (resolve ids edges).reverse).get tree.root, ?_,
      spanningTree_eq_ok_iff.mpr ?_⟩
    · rw [hVisits]
      exact visits_mirrored hOnce (hRoot ▸ List.mem_singleton_self _)
    · rw [resolve_reverse, hRoots]
      exact ⟨hRoot, rfl⟩

theorem plan_reverse (g : Geometry ℚ) {ids : Vector String n} {edges : List Edge}
    (hOnce : ((resolve ids edges).map Link.target).Nodup) :
    plan g ids edges.reverse = (plan g ids edges).map fun done =>
      (done.1, done.2.map (Option.map (Position.mirror g.originX))) := by
  obtain ⟨hError, hOk⟩ := spanningTree_reverse hOnce
  cases hTree : spanningTree ids edges with
  | error f =>
    rw [plan, plan, hTree, hError f hTree]
    rfl
  | ok tree =>
    obtain ⟨visits', hPerm, hTree'⟩ := hOk tree hTree
    have hOrder := SpanningTree.levelOrder hTree
    have hOrder' := SpanningTree.levelOrder hTree'
    obtain ⟨v, hv, hRoot, -⟩ := hOrder.exists_root_visit
    have hWidth : (subtreeWidths g visits').get tree.root =
        (subtreeWidths g tree.visits).get tree.root := by
      rw [← hRoot]
      exact get_subtreeWidths_mirrored hOrder hOrder' hPerm hv
    have hMoves : (positions g (centres g (subtreeWidths g visits') visits') visits').toList =
        (positions g (centres g (subtreeWidths g tree.visits) tree.visits) tree.visits).toList.map
          (Option.map (Position.mirror g.originX)) := by
      apply List.ext_getElem
      · simp
      · intro k hk hk'
        rw [Vector.length_toList] at hk
        rw [List.getElem_map, Vector.getElem_toList, Vector.getElem_toList]
        exact get_positions_mirrored hOrder hOrder' hPerm ⟨k, hk⟩
    have hCount := hPerm.length_eq
    rw [List.length_map] at hCount
    have hDepth := depth_mirrored hPerm
    rw [plan, plan, hTree, hTree']
    simp only [Except.map, SpanningTree.centres, SpanningTree.widths, hCount, hDepth, hWidth,
      hMoves]

/-- If no node has two edges to it, reversing the edges mirrors the layout: it fails in the same
way, or says the same and moves the same nodes, each to the other side of the root on its level. -/
theorem arrange_mirrored (g : Geometry ℚ) {nodes : List (Node ℚ)} {edges : List Edge}
    (hOnce : ((resolve (nodeIds nodes) edges).map Link.target).Nodup) :
    (∀ f, arrange g nodes edges.reverse = .error f ↔ arrange g nodes edges = .error f) ∧
    ∀ summary placed, arrange g nodes edges = .ok (summary, placed) →
      ∃ root moves, Places g (nodeIds nodes) edges root moves ∧
        placed = List.zipWith Node.place nodes moves ∧
        arrange g nodes edges.reverse = .ok (summary,
          List.zipWith Node.place nodes (moves.map (Option.map (Position.mirror g.originX)))) := by
  constructor
  · intro f
    rw [arrange_eq_plan, arrange_eq_plan, plan_reverse g hOnce]
    cases plan g (nodeIds nodes) edges with
    | error f' => exact Iff.rfl
    | ok done => exact ⟨nofun, nofun⟩
  · intro summary placed h
    obtain ⟨root, moves, hPlan, hPlaced, -, -, hPlaces⟩ := exists_plan h
    refine ⟨root, moves, hPlaces, hPlaced, ?_⟩
    rw [arrange_eq_plan, plan_reverse g hOnce, hPlan]
    rfl

def combEdges : List Edge :=
  [.between "a" "b", .between "a" "c", .between "c" "z", .between "b" "d"]

theorem arrange_mirrored_comb :
    ((resolve (nodeIds (plainNodes ["a", "b", "c", "d"])) combEdges).map Link.target).Nodup ∧
    ∃ summary placed root moves,
      arrange .standard (plainNodes ["a", "b", "c", "d"]) combEdges = .ok (summary, placed) ∧
      Places .standard (nodeIds (plainNodes ["a", "b", "c", "d"])) combEdges root moves ∧
      arrange .standard (plainNodes ["a", "b", "c", "d"]) combEdges.reverse = .ok (summary,
        List.zipWith Node.place (plainNodes ["a", "b", "c", "d"])
          (moves.map (Option.map (Position.mirror (Geometry.standard : Geometry ℚ).originX)))) := by
  have hOnce : ((resolve (nodeIds (plainNodes ["a", "b", "c", "d"])) combEdges).map
      Link.target).Nodup := by decide
  obtain ⟨tree, hTree⟩ :=
    exists_tree_iff.mpr (by decide : (roots (resolve (nodeIds (plainNodes ["a", "b", "c", "d"]))
      combEdges)).length = 1)
  have hArrange := arrange_eq_of_tree (g := (.standard : Geometry ℚ)) hTree
  obtain ⟨-, hOk⟩ := arrange_mirrored .standard hOnce
  obtain ⟨root, moves, hPlaces, -, hMirrored⟩ := hOk _ _ hArrange
  exact ⟨hOnce, _, _, root, moves, hArrange, hPlaces, hMirrored⟩

end Layout

end SyntaxDrawing
