import SyntaxDrawing.Proofs.Graph.Depth
import SyntaxDrawing.Proofs.Layout.Grading

/-!
# Graphs that are trees

In a tree all nodes hang below one root by one edge each, so every node has a depth. A layout of a
tree succeeds and sets every node on the level of its depth, with all its children below it. The
graph of a document is a tree if the document has one top.
-/

namespace SyntaxDrawing

open Coordinate Layout Relation

variable {α : Type}

/-- A tree below one node: ids differ, edges join nodes, and all other nodes hang below the root by
one edge each. -/
structure Graph.RootedTree (graph : Graph α) (root : Node α) : Prop where
  nodup : (graph.nodes.map Node.id).Nodup
  ends : ∀ e ∈ graph.edges, e.source ∈ graph.nodes.map Node.id ∧ e.target ∈ graph.nodes.map Node.id
  once : (graph.edges.map Edge.target).Nodup
  tops : graph.tops = [root]
  reaches : ∀ id ∈ graph.nodes.map Node.id, ReflTransGen graph.Leads root.id id

def Graph.childIds (graph : Graph α) (id : String) : List String :=
  (graph.edges.filter fun e => e.source = id).map Edge.target

theorem Graph.RootedTree.mem_ids_of_leads {graph : Graph α} {root : Node α}
    (h : graph.RootedTree root) {s u : String} (hLeads : graph.Leads s u) :
    s ∈ graph.nodes.map Node.id ∧ u ∈ graph.nodes.map Node.id := by
  obtain ⟨e, he, rfl, rfl⟩ := hLeads
  exact h.ends e he

theorem Graph.RootedTree.root_mem {graph : Graph α} {root : Node α} (h : graph.RootedTree root) :
    root ∈ graph.tops :=
  h.tops ▸ List.mem_singleton_self root

theorem Graph.RootedTree.exists_depth {graph : Graph α} {root : Node α}
    (h : graph.RootedTree root) {id : String} (hid : id ∈ graph.nodes.map Node.id) :
    ∃ k, graph.AtDepth id k := by
  induction h.reaches id hid with
  | refl => exact ⟨0, .top h.root_mem⟩
  | tail _ hLeads ih =>
    obtain ⟨k, hk⟩ := ih (h.mem_ids_of_leads hLeads).1
    exact ⟨k + 1, hk.child hLeads⟩

theorem Graph.AtDepth.reaches {graph : Graph α} {root : Node α} (hTops : graph.tops = [root])
    {id : String} {k : Nat} (h : graph.AtDepth id k) : ReflTransGen graph.Leads root.id id := by
  induction h with
  | top hTop =>
    rw [hTops, List.mem_singleton] at hTop
    rw [hTop]
  | child _ hLeads ih => exact ih.tail hLeads

/-- If no two links have a target in common, the walk leaves every child to its parent. -/
theorem Layout.kept_eq_children {n : Nat} {links : List (Link n)} {root : Fin n}
    (hOnce : (links.map Link.target).Nodup) (hRoot : root ∈ roots links) {v : Visit n}
    (hv : v ∈ visits (childTable links).get root) : v.kept = (childTable links).get v.node := by
  have hOrder := visits_levelOrder (childTable links).get root
  obtain ⟨hSub, hVisited⟩ := visits_offspring _ root hv
  refine hSub.eq_of_length_le ?_
  have hNodup : ((childTable links).get v.node).Nodup := by
    rw [get_childTable]
    exact (List.filter_sublist.map _).nodup hOnce
  refine (List.subperm_of_subset hNodup ?_).length_le
  intro c hc
  obtain ⟨u, hu, rfl⟩ := hVisited c hc
  rw [get_childTable] at hc
  obtain ⟨l, hl, hTarget⟩ := List.mem_map.mp hc
  obtain ⟨hl, hSource⟩ := List.mem_filter.mp hl
  rcases hOrder.root_or_child hu with ⟨hNode, -⟩ | ⟨w, hw, hKept, -⟩
  · exact absurd (hTarget.trans hNode) ((mem_roots_iff links root).mp hRoot l hl)
  · have hChild := (visits_offspring _ root hw).1.subset hKept
    rw [get_childTable] at hChild
    obtain ⟨l', hl', hTarget'⟩ := List.mem_map.mp hChild
    obtain ⟨hl', hSource'⟩ := List.mem_filter.mp hl'
    have hSame := List.inj_on_of_nodup_map hOnce hl hl' (hTarget.trans hTarget'.symm)
    rw [decide_eq_true_eq] at hSource hSource'
    have hNode : v.node = w.node := by rw [← hSource, ← hSource', hSame]
    rw [hOrder.visit_eq hv hw hNode]
    exact hKept

section

variable [Coordinate α] {graph : Graph α} {root : Node α}

theorem mem_resolve_iff_leads (hNodup : (graph.nodes.map Node.id).Nodup)
    {l : Link graph.nodes.length} :
    l ∈ resolve (nodeIds graph.nodes) graph.edges ↔
      graph.Leads (graph.nodes.get l.source).id (graph.nodes.get l.target).id := by
  rw [mem_resolve_iff_of_injective (nodeIds_injective hNodup), get_nodeIds, get_nodeIds]
  rfl

/-- Where edges join nodes with different ids, the roots of the links are the tops. -/
theorem Graph.tops_eq_map_roots (hNodup : (graph.nodes.map Node.id).Nodup)
    (hEnds : ∀ e ∈ graph.edges,
      e.source ∈ graph.nodes.map Node.id ∧ e.target ∈ graph.nodes.map Node.id) :
    graph.tops = (roots (resolve (nodeIds graph.nodes) graph.edges)).map graph.nodes.get := by
  have hMem : ∀ i : Fin graph.nodes.length, graph.nodes.get i ∈ graph.tops ↔
      i ∈ roots (resolve (nodeIds graph.nodes) graph.edges) := by
    intro i
    rw [Graph.mem_tops_iff, and_iff_right (List.get_mem _ i), mem_roots_iff]
    constructor
    · rintro hNone l hl rfl
      exact hNone _ ((mem_resolve_iff_leads hNodup).mp hl)
    · rintro hNone s ⟨e, he, rfl, hTarget⟩
      obtain ⟨node, hNode, hSource⟩ := List.mem_map.mp (hEnds e he).1
      obtain ⟨j, rfl⟩ := List.get_of_mem hNode
      exact hNone ⟨j, i⟩ ((mem_resolve_iff_leads hNodup).mpr ⟨e, he, hSource.symm, hTarget⟩) rfl
  have hTops := congrArg (List.filter fun n : Node α => n.id ∉ graph.edges.map Edge.target)
    (List.map_get_finRange graph.nodes)
  rw [List.filter_map] at hTops
  rw [Graph.tops, ← hTops, roots]
  congr 1
  apply List.filter_congr
  intro i hi
  have hIff := hMem i
  rw [Graph.tops, List.mem_filter, and_iff_right (List.get_mem _ i), roots, List.mem_filter,
    and_iff_right hi] at hIff
  exact Bool.eq_iff_iff.mpr hIff

theorem Graph.RootedTree.get_mem_tops_iff (h : graph.RootedTree root)
    (i : Fin graph.nodes.length) : graph.nodes.get i ∈ graph.tops ↔
      i ∈ roots (resolve (nodeIds graph.nodes) graph.edges) := by
  have hInjective : Function.Injective graph.nodes.get :=
    List.nodup_iff_injective_get.mp h.nodup.of_map
  rw [Graph.tops_eq_map_roots h.nodup h.ends, List.mem_map_of_injective hInjective]

theorem Graph.RootedTree.exists_graded (h : graph.RootedTree root) :
    ∃ level : Fin graph.nodes.length → Nat,
      Graded (resolve (nodeIds graph.nodes) graph.edges) level ∧
        ∀ i, graph.AtDepth (graph.nodes.get i).id (level i) := by
  have hDepth : ∀ i : Fin graph.nodes.length, ∃ k, graph.AtDepth (graph.nodes.get i).id k :=
    fun i => h.exists_depth (List.mem_map_of_mem (List.get_mem graph.nodes i))
  choose level hLevel using hDepth
  refine ⟨level, ⟨?_, ?_⟩, hLevel⟩
  · intro l hl
    have hLeads := (mem_resolve_iff_leads h.nodup).mp hl
    exact (hLevel l.target).unique h.once ((hLevel l.source).child hLeads)
  · intro i hNone
    have hTop := (h.get_mem_tops_iff i).mpr ((mem_roots_iff _ i).mpr hNone)
    exact (hLevel i).unique h.once (.top hTop)

theorem Graph.RootedTree.exists_root (h : graph.RootedTree root) :
    ∃ i, graph.nodes.get i = root ∧ roots (resolve (nodeIds graph.nodes) graph.edges) = [i] := by
  have hTops := h.tops
  rw [Graph.tops_eq_map_roots h.nodup h.ends, List.map_eq_singleton_iff] at hTops
  obtain ⟨i, hRoots, hNode⟩ := hTops
  exact ⟨i, hNode, hRoots⟩

def Node.PlacedAtDepth (graph : Graph α) (g : Geometry α) (node placed : Node α) : Prop :=
  ∃ x k, graph.AtDepth node.id k ∧ placed = node.moveTo ⟨x, ofCount k * g.levelHeight⟩

/-- The layout of a tree visits every node, on the level of its depth and with all its children. -/
theorem Graph.RootedTree.exists_tree (h : graph.RootedTree root) :
    ∃ tree, spanningTree (nodeIds graph.nodes) graph.edges = .ok tree ∧
      graph.nodes.get tree.root = root ∧ (∀ i, i ∈ tree.visits.map Visit.node) ∧
      ∀ v ∈ tree.visits, graph.AtDepth (graph.nodes.get v.node).id v.depth ∧
        v.kept.map (nodeIds graph.nodes).get = graph.childIds (graph.nodes.get v.node).id := by
  obtain ⟨level, hGraded, hLevel⟩ := h.exists_graded
  obtain ⟨i, hi, hRoot⟩ := h.exists_root
  obtain ⟨tree, hTree⟩ := exists_tree_iff.mpr (by rw [hRoot]; rfl :
    (roots (resolve (nodeIds graph.nodes) graph.edges)).length = 1)
  have hTreeRoot : tree.root = i := by
    have hSame := (spanningTree_eq_ok_iff.mp hTree).1.symm.trans hRoot
    simpa using hSame
  have hVisits := (spanningTree_eq_ok_iff.mp hTree).2
  rw [hTreeRoot] at hVisits
  have hOnce : ((resolve (nodeIds graph.nodes) graph.edges).map Link.target).Nodup := by
    have hNodup := (map_target_resolve_sublist (nodeIds graph.nodes) graph.edges).nodup h.once
    rw [← Function.comp_def, ← List.map_map] at hNodup
    exact hNodup.of_map
  have hTargets : ∀ e ∈ graph.edges, ∃ j, (nodeIds graph.nodes).get j = e.target := by
    intro e he
    obtain ⟨node, hNode, hId⟩ := List.mem_map.mp (h.ends e he).2
    obtain ⟨j, rfl⟩ := List.get_of_mem hNode
    exact ⟨j, (get_nodeIds graph.nodes j).trans hId⟩
  refine ⟨tree, hTree, hTreeRoot ▸ hi, ?_, ?_⟩
  · intro j
    obtain ⟨v, hv, rfl⟩ := hGraded.exists_visit hRoot j
    exact List.mem_map_of_mem (hVisits ▸ hv)
  intro v hv
  rw [hVisits] at hv
  refine ⟨hGraded.depth_eq hRoot v hv ▸ hLevel v.node, ?_⟩
  rw [kept_eq_children hOnce (hRoot ▸ List.mem_singleton_self i) hv,
    map_children_of_injective (nodeIds_injective h.nodup) hTargets, get_nodeIds]
  rfl

theorem Graph.RootedTree.arrange (h : graph.RootedTree root) (g : Geometry α) :
    ∃ summary placed, Layout.arrange g graph.nodes graph.edges = .ok (summary, placed) ∧
      summary.root = root.id ∧ summary.nodeCount = graph.nodes.length ∧
      List.Forall₂ (Node.PlacedAtDepth graph g) graph.nodes placed := by
  obtain ⟨tree, hTree, hRoot, hAll, hVisits⟩ := h.exists_tree
  have hOrder := SpanningTree.levelOrder hTree
  refine ⟨_, _, arrange_eq_of_tree hTree, ?_, ?_, ?_⟩
  · show (nodeIds graph.nodes).get tree.root = root.id
    rw [get_nodeIds, hRoot]
  · show tree.visits.length = graph.nodes.length
    have hPerm : (tree.visits.map Visit.node).Perm (List.finRange graph.nodes.length) := by
      rw [List.perm_ext_iff_of_nodup hOrder.nodup (List.nodup_finRange _)]
      exact fun j => iff_of_true (hAll j) (List.mem_finRange j)
    simpa using hPerm.length_eq
  · rw [List.forall₂_iff_get]
    refine ⟨by simp, ?_⟩
    intro k hk hk'
    obtain ⟨v, hv, hNode⟩ := List.mem_map.mp (hAll ⟨k, hk⟩)
    have hMoved := SpanningTree.moved_visit (g := g) hOrder hv
    have hDepth := (hVisits v hv).1
    rw [hNode] at hMoved hDepth
    rw [List.get_ofFn]
    exact ⟨_, v.depth, hDepth, hMoved⟩

end

theorem ends_described [Coordinate α] (policy : Policy) (t : Tree) :
    ∀ e ∈ (Graph.described policy none t : Graph α).edges,
      e.source ∈ (Graph.described policy none t : Graph α).nodes.map Node.id ∧
        e.target ∈ (Graph.described policy none t : Graph α).nodes.map Node.id := by
  intro e he
  rw [ids_described]
  obtain ⟨p, hp, hEdge⟩ := List.mem_filterMap.mp he
  obtain ⟨s, hs, rfl⟩ := Option.map_eq_some_iff.mp hEdge
  obtain ⟨q, hq, rfl⟩ := (leads_described_iff hp).mp ⟨_, he, rfl, rfl⟩
  exact ⟨List.mem_map_of_mem (Tree.mem_emitted_of_nearest? hp hq), List.mem_map_of_mem hp⟩

theorem nodup_ids_described [Coordinate α] (policy : Policy) (t : Tree) :
    ((Graph.described policy none t : Graph α).nodes.map Node.id).Nodup := by
  rw [ids_described]
  exact nodup_map_idAt policy t

/-- The graph of a document is a tree if the document has one top. -/
theorem described_rootedTree [Coordinate α] {policy : Policy} {t : Tree} {p : Occurrence}
    (hTop : t.tops policy = [p]) :
    (Graph.described policy none t : Graph α).RootedTree (nodeAt α policy t p) := by
  have hTops : (Graph.described policy none t : Graph α).tops = [nodeAt α policy t p] := by
    rw [tops_described, hTop, List.map_singleton]
  refine ⟨nodup_ids_described policy t, ends_described policy t, nodup_targets_described policy t,
    hTops, ?_⟩
  intro id hid
  rw [ids_described] at hid
  obtain ⟨p, hp, rfl⟩ := List.mem_map.mp hid
  exact (atDepth_described hp).reaches hTops

end SyntaxDrawing
