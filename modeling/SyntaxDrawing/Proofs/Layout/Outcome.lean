import SyntaxDrawing.Proofs.Layout.ShortestPaths

/-!
# When a layout succeeds and what it changes

A layout is decided by how many nodes no edge leads to: it needs exactly one. Then it moves the
nodes that this root reaches, and where to is settled by the ids of the nodes and the ends of the
edges. Nothing else about the nodes counts or changes, so a second run finds all in place.
-/

namespace SyntaxDrawing

def Edge.ends (e : Edge) : String × String :=
  (e.source, e.target)

def Node.place {α : Type} (node : Node α) (move : Option (Position α)) : Node α :=
  move.elim node node.moveTo

namespace Layout

open Coordinate Relation

variable {n : Nat} {ids : Vector String n} {edges : List Edge}

def free (ids : Vector String n) (edges : List Edge) : Set (Fin n) :=
  {i | ∀ j, ¬ Joined ids edges j i}

theorem mem_roots_iff_free (i : Fin n) : i ∈ roots (resolve ids edges) ↔ i ∈ free ids edges := by
  rw [mem_roots_iff_children]
  simp only [mem_children_iff]
  rfl

theorem ncard_free (ids : Vector String n) (edges : List Edge) :
    (free ids edges).ncard = (roots (resolve ids edges)).length := by
  have hSet : free ids edges = ((roots (resolve ids edges)).toFinset : Set (Fin n)) := by
    ext i
    rw [Finset.mem_coe, List.mem_toFinset, mem_roots_iff_free]
  rw [hSet, Set.ncard_coe_finset, List.toFinset_card_of_nodup (nodup_roots _)]

theorem free_eq_empty_iff : free ids edges = ∅ ↔ roots (resolve ids edges) = [] := by
  rw [Set.eq_empty_iff_forall_notMem, List.eq_nil_iff_forall_not_mem]
  simp only [mem_roots_iff_free]

theorem free_eq_singleton_iff {root : Fin n} :
    free ids edges = {root} ↔ roots (resolve ids edges) = [root] := by
  constructor
  · intro h
    have hLength := ncard_free ids edges
    rw [h, Set.ncard_singleton] at hLength
    obtain ⟨root', hRoots⟩ := List.length_eq_one_iff.mp hLength.symm
    have hMem : root' ∈ free ids edges := by
      rw [← mem_roots_iff_free, hRoots]
      exact List.mem_singleton_self root'
    rw [h] at hMem
    rw [hRoots, Set.mem_singleton_iff.mp hMem]
  · intro h
    ext i
    rw [← mem_roots_iff_free, h, List.mem_singleton, Set.mem_singleton_iff]

theorem soleRoot_eq_error_iff {links : List (Link n)} {f : LayoutFailure} :
    soleRoot links = .error f ↔
      f = .empty ∧ n = 0 ∨ f = .noRoot ∧ n ≠ 0 ∧ roots links = [] ∨
        f = .manyRoots (roots links).length ∧ 2 ≤ (roots links).length := by
  by_cases hn : n = 0
  · subst hn
    have hNone : roots links = [] := List.eq_nil_iff_forall_not_mem.mpr fun i => i.elim0
    simp [soleRoot, hNone, eq_comm]
  · rw [soleRoot, if_neg hn]
    rcases hRoots : roots links with _ | ⟨r, _ | ⟨s, rest⟩⟩
    · simp [hn, eq_comm]
    · simp [hn]
    · simp [hn, eq_comm]

theorem spanningTree_eq_error_iff {f : LayoutFailure} :
    spanningTree ids edges = .error f ↔
      f = .empty ∧ n = 0 ∨ f = .noRoot ∧ n ≠ 0 ∧ free ids edges = ∅ ∨
        f = .manyRoots (free ids edges).ncard ∧ 2 ≤ (free ids edges).ncard := by
  rw [free_eq_empty_iff, ncard_free, ← soleRoot_eq_error_iff, spanningTree]
  cases soleRoot (resolve ids edges) with
  | error f' => simp
  | ok root => simp

def linkOf? (ids : Vector String n) (ends : String × String) : Option (Link n) :=
  (lastHolders ids)[ends.1]?.bind fun source =>
    (lastHolders ids)[ends.2]?.map fun target => ⟨source, target⟩

theorem resolve_eq_filterMap (ids : Vector String n) (edges : List Edge) :
    resolve ids edges = (edges.map Edge.ends).filterMap (linkOf? ids) := by
  rw [List.filterMap_map, resolve]
  apply List.filterMap_congr
  intro e _
  rw [Function.comp_apply, linkOf?, Edge.ends]
  cases (lastHolders ids)[e.source]? with
  | none => rfl
  | some source => cases (lastHolders ids)[e.target]? <;> rfl

theorem resolve_congr {edges' : List Edge} (h : edges'.map Edge.ends = edges.map Edge.ends) :
    resolve ids edges' = resolve ids edges := by
  rw [resolve_eq_filterMap, resolve_eq_filterMap, h]

section

variable {α : Type} [Coordinate α]

/-- What a layout does to nodes with these ids: it says what it has drawn and gives some of them a
place. -/
def plan (g : Geometry α) (ids : Vector String n) (edges : List Edge) :
    Except LayoutFailure (Summary α × List (Option (Position α))) :=
  (spanningTree ids edges).map fun tree =>
    ({ root := ids.get tree.root
       nodeCount := tree.visits.length
       depth := tree.visits.foldl (fun deepest v => max deepest v.depth) 0
       width := (tree.widths g).get tree.root },
      (positions g (tree.centres g) tree.visits).toList)

theorem plan_congr (g : Geometry α) {m n : Nat} {ids : Vector String m} {ids' : Vector String n}
    {edges edges' : List Edge} (hIds : ids'.toList = ids.toList)
    (hEdges : edges'.map Edge.ends = edges.map Edge.ends) :
    plan g ids' edges' = plan g ids edges := by
  have hSize : n = m := by
    have hLength := congrArg List.length hIds
    rwa [Vector.length_toList, Vector.length_toList] at hLength
  subst hSize
  rw [Vector.toList_inj.mp hIds]
  have hTree : spanningTree ids edges' = spanningTree ids edges := by
    rw [spanningTree, spanningTree, resolve_congr hEdges]
  rw [plan, plan, hTree]

variable {g : Geometry α} {nodes : List (Node α)}

theorem arrange_eq_plan (g : Geometry α) (nodes : List (Node α)) (edges : List Edge) :
    arrange g nodes edges = (plan g (nodeIds nodes) edges).map fun done =>
      (done.1, List.zipWith Node.place nodes done.2) := by
  rw [arrange, plan]
  cases spanningTree (nodeIds nodes) edges with
  | error f => rfl
  | ok tree => rfl

/-- Laying out in place: one visit after the other writes its position. -/
def arrangeInPlace (g : Geometry α) (nodes : List (Node α)) (edges : List Edge) :
    Except LayoutFailure (Summary α) × List (Node α) :=
  match spanningTree (nodeIds nodes) edges with
  | .error f => (.error f, nodes)
  | .ok tree =>
    (.ok (tree.summary g nodes),
      tree.visits.foldl
        (fun nodes v => nodes.modify v.node
          (·.moveTo ⟨(tree.centres g).get v.node, ofCount v.depth * g.levelHeight⟩))
        nodes)

omit [Coordinate α] in
theorem modify_zipWith_place (moves : Vector (Option (Position α)) nodes.length)
    (i : Fin nodes.length) (p : Position α) :
    (List.zipWith Node.place nodes moves.toList).modify i (·.moveTo p) =
      List.zipWith Node.place nodes (put moves i (some p)).toList := by
  apply List.ext_getElem
  · simp
  · intro k hk hk'
    rw [List.getElem_modify, List.getElem_zipWith, List.getElem_zipWith, Vector.getElem_toList,
      Vector.getElem_toList]
    simp only [put, Vector.getElem_set]
    split
    · simp only [Node.place]
      cases moves[k] <;> rfl
    · rfl

theorem arrangeInPlace_eq (g : Geometry α) (nodes : List (Node α)) (edges : List Edge) :
    arrangeInPlace g nodes edges =
      ((arrange g nodes edges).map Prod.fst, layout g nodes edges) := by
  rw [arrangeInPlace, layout, arrange_eq_plan, plan]
  cases spanningTree (nodeIds nodes) edges with
  | error f => rfl
  | ok tree =>
    have hWrites : ∀ (visits : List (Visit nodes.length)) moves,
        visits.foldl (fun nodes v => nodes.modify v.node
            (·.moveTo ⟨(tree.centres g).get v.node, ofCount v.depth * g.levelHeight⟩))
          (List.zipWith Node.place nodes moves.toList) =
        List.zipWith Node.place nodes (visits.foldl (fun placed v => put placed v.node
          (some ⟨(tree.centres g).get v.node, ofCount v.depth * g.levelHeight⟩)) moves).toList := by
      intro visits
      induction visits with
      | nil => exact fun _ => rfl
      | cons v rest ih =>
        intro moves
        rw [List.foldl_cons, List.foldl_cons, modify_zipWith_place, ih]
    have hStart : List.zipWith Node.place nodes
        (Vector.replicate nodes.length (none : Option (Position α))).toList = nodes := by
      apply List.ext_getElem
      · simp
      · intro k hk hk'
        simp [Node.place]
    have hAll := hWrites tree.visits (Vector.replicate nodes.length none)
    rw [hStart] at hAll
    exact congrArg (Prod.mk _) hAll

omit [Coordinate α] in
/-- Whatever places nodes are given, they keep their ids. -/
theorem map_id_zipWith_place {nodes : List (Node α)} {moves : List (Option (Position α))}
    (h : moves.length = nodes.length) :
    (List.zipWith Node.place nodes moves).map Node.id = nodes.map Node.id := by
  induction nodes generalizing moves with
  | nil => rfl
  | cons node nodes ih =>
    cases moves with
    | nil => cases h
    | cons move moves =>
      rw [List.zipWith_cons_cons, List.map_cons, List.map_cons, ih (Nat.succ.inj h)]
      cases move <;> rfl

omit [Coordinate α] in
/-- To be given the same place again changes nothing. -/
theorem zipWith_place_again (nodes : List (Node α)) (moves : List (Option (Position α))) :
    List.zipWith Node.place (List.zipWith Node.place nodes moves) moves =
      List.zipWith Node.place nodes moves := by
  induction nodes generalizing moves with
  | nil => rfl
  | cons node nodes ih =>
    cases moves with
    | nil => rfl
    | cons move moves =>
      rw [List.zipWith_cons_cons, List.zipWith_cons_cons, ih]
      cases move <;> rfl

/-- The places that a layout gives: one for each node that the root reaches, the root's own at the
origin of the geometry. -/
structure Places (g : Geometry α) (ids : Vector String n) (edges : List Edge) (root : Fin n)
    (moves : List (Option (Position α))) : Prop where
  length_eq : moves.length = n
  root_eq : moves[root.val]? = some (some ⟨g.originX, ofCount 0 * g.levelHeight⟩)
  moved_iff : ∀ i : Fin n, (∃ p, moves[i.val]? = some (some p)) ↔
    ReflTransGen (Joined ids edges) root i

theorem SpanningTree.places {tree : SpanningTree n} (h : spanningTree ids edges = .ok tree) :
    Places g ids edges tree.root (positions g (tree.centres g) tree.visits).toList := by
  have hOrder := SpanningTree.levelOrder h
  have hMove : ∀ i : Fin n, (positions g (tree.centres g) tree.visits).toList[i.val]? =
      some ((positions g (tree.centres g) tree.visits).get i) := by
    intro i
    rw [List.getElem?_eq_getElem (by simp), Vector.getElem_toList, get_eq_getElem]
  refine ⟨Vector.length_toList, ?_, ?_⟩
  · obtain ⟨v, hv, hNode, hDepth⟩ := hOrder.exists_root_visit
    have hOrigin : (tree.centres g).get tree.root = g.originX := hOrder.get_centres_root _
    rw [hMove, ← hNode, get_positions _ hOrder.nodup hv, hDepth, hNode, hOrigin]
  · intro i
    rw [hMove, ← (SpanningTree.breadthFirst h).visited_iff i]
    constructor
    · rintro ⟨p, hp⟩
      by_contra hi
      rw [get_positions_of_notMem _ hi] at hp
      cases hp
    · intro hi
      obtain ⟨v, hv, rfl⟩ := List.mem_map.mp hi
      exact ⟨_, congrArg some (get_positions _ hOrder.nodup hv)⟩

theorem arrange_of_plan {summary : Summary α} {moves : List (Option (Position α))}
    (h : plan g (nodeIds nodes) edges = .ok (summary, moves)) {nodes' : List (Node α)}
    {edges' : List Edge} (hIds : nodes'.map Node.id = nodes.map Node.id)
    (hEdges : edges'.map Edge.ends = edges.map Edge.ends) :
    arrange g nodes' edges' = .ok (summary, List.zipWith Node.place nodes' moves) := by
  rw [← toList_nodeIds, ← toList_nodeIds] at hIds
  rw [arrange_eq_plan, plan_congr g hIds hEdges, h]
  rfl

theorem exists_plan {summary : Summary α} {placed : List (Node α)}
    (h : arrange g nodes edges = .ok (summary, placed)) :
    ∃ root moves, plan g (nodeIds nodes) edges = .ok (summary, moves) ∧
      placed = List.zipWith Node.place nodes moves ∧ free (nodeIds nodes) edges = {root} ∧
      summary.root = (nodes.get root).id ∧ Places g (nodeIds nodes) edges root moves := by
  obtain ⟨tree, hTree, rfl, -⟩ := arrange_eq_ok_iff.mp h
  have hPlan : plan g (nodeIds nodes) edges =
      .ok (tree.summary g nodes, (positions g (tree.centres g) tree.visits).toList) := by
    rw [plan, hTree]
    rfl
  have hPlaced := arrange_of_plan hPlan rfl rfl
  rw [h] at hPlaced
  cases hPlaced
  exact ⟨tree.root, _, hPlan, rfl, free_eq_singleton_iff.mpr (spanningTree_eq_ok_iff.mp hTree).1,
    get_nodeIds nodes tree.root, SpanningTree.places hTree⟩

theorem layout_of_ok {summary : Summary α} {placed : List (Node α)}
    (h : arrange g nodes edges = .ok (summary, placed)) : layout g nodes edges = placed := by
  rw [layout, h]

theorem layout_of_error {f : LayoutFailure} (h : arrange g nodes edges = .error f) :
    layout g nodes edges = nodes := by
  rw [layout, h]

/-- A second layout finds all in place. -/
theorem arrange_again {summary : Summary α} {placed : List (Node α)}
    (h : arrange g nodes edges = .ok (summary, placed)) :
    arrange g placed edges = .ok (summary, placed) := by
  obtain ⟨root, moves, hPlan, rfl, -, -, hPlaces⟩ := exists_plan h
  rw [arrange_of_plan hPlan (map_id_zipWith_place hPlaces.length_eq) rfl, zipWith_place_again]

theorem exists_arrange_iff :
    (∃ done, arrange g nodes edges = .ok done) ↔ ∃ root, free (nodeIds nodes) edges = {root} := by
  simp only [free_eq_singleton_iff, ← List.length_eq_one_iff, ← exists_tree_iff]
  constructor
  · rintro ⟨⟨summary, placed⟩, h⟩
    obtain ⟨tree, hTree, -⟩ := arrange_eq_ok_iff.mp h
    exact ⟨tree, hTree⟩
  · rintro ⟨tree, hTree⟩
    exact ⟨_, arrange_eq_of_tree hTree⟩

/-- A layout fails for want of nodes or of an only node that no edge leads to, and then nothing
changes. Otherwise it gives that node and all that it reaches a place and changes nothing else, in
one way for all nodes with the same ids and all edges with the same ends. -/
theorem arrange_outcome (g : Geometry α) (nodes : List (Node α)) (edges : List Edge) :
    let free := free (nodeIds nodes) edges
    (arrange g nodes edges = .error .empty ↔ nodes = []) ∧
    (arrange g nodes edges = .error .noRoot ↔ nodes ≠ [] ∧ free = ∅) ∧
    (∀ count, arrange g nodes edges = .error (.manyRoots count) ↔
      count = free.ncard ∧ 2 ≤ free.ncard) ∧
    ((∃ done, arrange g nodes edges = .ok done) ↔ ∃ root, free = {root}) ∧
    arrangeInPlace g nodes edges = ((arrange g nodes edges).map Prod.fst, layout g nodes edges) ∧
    (∀ f, arrange g nodes edges = .error f → layout g nodes edges = nodes) ∧
    (∀ summary placed, arrange g nodes edges = .ok (summary, placed) →
      layout g nodes edges = placed ∧ arrange g placed edges = .ok (summary, placed) ∧
      ∃ root moves, free = {root} ∧ summary.root = (nodes.get root).id ∧
        Places g (nodeIds nodes) edges root moves ∧
        ∀ nodes' edges', nodes'.map Node.id = nodes.map Node.id →
          edges'.map Edge.ends = edges.map Edge.ends →
          arrange g nodes' edges' = .ok (summary, List.zipWith Node.place nodes' moves)) ∧
    layout g (layout g nodes edges) edges = layout g nodes edges := by
  intro free
  refine ⟨?_, ?_, ?_, exists_arrange_iff, arrangeInPlace_eq g nodes edges,
    fun f h => layout_of_error h, ?_, ?_⟩
  · rw [arrange_eq_error_iff, spanningTree_eq_error_iff]
    simp
  · rw [arrange_eq_error_iff, spanningTree_eq_error_iff]
    simp [free]
  · intro count
    rw [arrange_eq_error_iff, spanningTree_eq_error_iff]
    simp [free]
  · intro summary placed h
    obtain ⟨root, moves, hPlan, -, hFree, hRoot, hPlaces⟩ := exists_plan h
    refine ⟨layout_of_ok h, arrange_again h, root, moves, hFree, hRoot, hPlaces, ?_⟩
    intro nodes' edges' hIds hEdges
    exact arrange_of_plan hPlan hIds hEdges
  · cases h : arrange g nodes edges with
    | error f => rw [layout_of_error h, layout_of_error h]
    | ok done => rw [layout_of_ok h, layout_of_ok (arrange_again h)]

end

end Layout

end SyntaxDrawing
