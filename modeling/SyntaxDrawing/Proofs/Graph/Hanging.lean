import SyntaxDrawing.Proofs.Graph.Grafting
import SyntaxDrawing.Proofs.Graph.Part
import SyntaxDrawing.Proofs.Layout.Outcome

/-!
# Graphs that hang below an id

A graph that is built below an id has the nodes of the graph built without one and an edge for each
of them: those of that graph, and one from the id to each of its tops. If the id is that of no node,
a layout passes over these edges and draws the same; if it is one of the nodes, no root is left.
-/

namespace SyntaxDrawing

open Layout

theorem map_getD_perm {β γ : Type} (f : β → Option γ) (g : β → γ) (xs : List β) :
    (xs.map fun x => (f x).getD (g x)).Perm
      (xs.filterMap f ++ (xs.filter fun x => (f x).isNone).map g) := by
  induction xs with
  | nil => exact .refl _
  | cons x rest ih =>
    cases hx : f x with
    | none =>
      rw [List.map_cons, hx, List.filterMap_cons_none hx, List.filter_cons_of_pos (by simp [hx])]
      exact (ih.cons (g x)).trans List.perm_middle.symm
    | some y =>
      rw [List.map_cons, hx, List.filterMap_cons_some hx, List.filter_cons_of_neg (by simp [hx])]
      exact ih.cons y

theorem filterMap_sublist_map_getD {β γ : Type} (f : β → Option γ) (g : β → γ) (xs : List β) :
    (xs.filterMap f).Sublist (xs.map fun x => (f x).getD (g x)) := by
  apply filterMap_sublist_map
  intro x y hx
  rw [hx, Option.getD_some]

variable {α : Type} [Coordinate α] {policy : Policy} {parent : String} {t : Tree}

theorem edges_hanging (policy : Policy) (parent : String) (t : Tree) :
    (Graph.described policy (some parent) t : Graph α).edges = (t.emitted policy).map fun p =>
      (edgeAt? policy t p).getD (.between parent (t.idAt policy p)) := by
  rw [edges_described_under]
  apply List.map_congr_left
  intro p _
  rw [edgeAt?]
  cases p.nearest? policy <;> rfl

/-- An edge from what is no node makes no link. -/
theorem resolve_hanging {n : Nat} {ids : Vector String n} (hParent : parent ∉ ids.toList) :
    resolve ids (Graph.described policy (some parent) t : Graph α).edges =
      resolve ids (Graph.described policy none t : Graph α).edges := by
  have hNone : (lastHolders ids)[parent]? = none := by
    rw [Option.eq_none_iff_forall_ne_some]
    intro i hi
    exact hParent (mem_toList_iff.mpr ⟨i, (getElem?_lastHolders_eq_some_iff.mp hi).1⟩)
  rw [edges_hanging, edges_described, resolve, resolve, List.filterMap_map,
    List.filterMap_filterMap]
  apply List.filterMap_congr
  intro p _
  rw [Function.comp_apply]
  cases edgeAt? policy t p with
  | none => simp [Edge.between, hNone]
  | some e => rfl

theorem free_hanging (hParent : parent ∈ (t.emitted policy).map (t.idAt policy)) :
    let graph : Graph α := .described policy (some parent) t
    free (nodeIds graph.nodes) graph.edges = ∅ := by
  intro graph
  have hIds : graph.nodes.map Node.id = (t.emitted policy).map (t.idAt policy) :=
    ids_described policy (some parent) t
  have hNodup : (graph.nodes.map Node.id).Nodup := hIds ▸ nodup_map_idAt policy t
  rw [free_eq_empty_iff, List.eq_nil_iff_forall_not_mem]
  intro i hRoot
  rw [mem_roots_iff] at hRoot
  have hId : (graph.nodes.get i).id ∈ (t.emitted policy).map (t.idAt policy) := by
    rw [← hIds]
    exact List.mem_map_of_mem (List.get_mem _ i)
  obtain ⟨p, hp, hTarget⟩ := List.mem_map.mp hId
  have hSource : ((p.nearest? policy).map (t.idAt policy)).getD parent ∈
      graph.nodes.map Node.id := by
    rw [hIds]
    cases hNearest : p.nearest? policy with
    | none => exact hParent
    | some q => exact List.mem_map_of_mem (Tree.mem_emitted_of_nearest? hp hNearest)
  obtain ⟨node, hNode, hSource⟩ := List.mem_map.mp hSource
  obtain ⟨j, rfl⟩ := List.get_of_mem hNode
  refine hRoot ⟨j, i⟩ ((mem_resolve_iff_leads hNodup).mpr ?_) rfl
  rw [← hTarget]
  exact (leads_described_under_iff hp).mpr hSource.symm

theorem targets_hanging :
    (Graph.described policy (some parent) t : Graph α).edges.map Edge.target =
      (Graph.described policy (some parent) t : Graph α).nodes.map Node.id := by
  rw [edges_hanging, ids_described, List.map_map]
  apply List.map_congr_left
  intro p _
  rw [Function.comp_apply, edgeAt?]
  cases p.nearest? policy <;> rfl

/-- Every edge of the graph itself, and one from the id to each top. -/
theorem edges_hanging_perm :
    (Graph.described policy (some parent) t : Graph α).edges.Perm
      ((Graph.described policy none t : Graph α).edges ++
        (Graph.described policy none t : Graph α).tops.map fun node =>
          .between parent node.id) := by
  have hTops : (Graph.described policy none t : Graph α).tops.map
        (fun node => Edge.between parent node.id) =
      ((t.emitted policy).filter fun p => (edgeAt? policy t p).isNone).map fun p =>
        .between parent (t.idAt policy p) := by
    rw [tops_described, List.map_map, Tree.tops]
    congr 1
    apply List.filter_congr
    intro p _
    rw [Bool.eq_iff_iff, decide_eq_true_eq, Occurrence.level_eq_zero_iff, edgeAt?,
      Option.isNone_map, Option.isNone_iff_eq_none]
  rw [edges_hanging, edges_described, hTops]
  exact map_getD_perm _ _ _

theorem arrange_hanging_of_notMem (hParent : parent ∉ (t.emitted policy).map (t.idAt policy))
    (g : Geometry α) :
    let hanging : Graph α := .described policy (some parent) t
    let graph : Graph α := .described policy none t
    arrange g hanging.nodes hanging.edges = arrange g graph.nodes graph.edges := by
  intro hanging graph
  have hNodes : hanging.nodes = graph.nodes := rfl
  have hTree : spanningTree (nodeIds graph.nodes) hanging.edges =
      spanningTree (nodeIds graph.nodes) graph.edges := by
    rw [spanningTree, spanningTree, resolve_hanging (by rwa [toList_nodeIds, ids_described])]
  rw [hNodes, arrange_eq_plan, arrange_eq_plan, plan, plan, hTree]

theorem arrange_hanging_of_mem (hParent : parent ∈ (t.emitted policy).map (t.idAt policy))
    (g : Geometry α) :
    let hanging : Graph α := .described policy (some parent) t
    arrange g hanging.nodes hanging.edges = .error .noRoot := by
  intro hanging
  have hNodes : hanging.nodes ≠ [] := by
    intro hEmpty
    have hNone : hanging.nodes.map Node.id = _ := ids_described policy (some parent) t
    rw [hEmpty] at hNone
    rw [← hNone] at hParent
    cases hParent
  rw [arrange_eq_error_iff, spanningTree_eq_error_iff]
  exact .inr (.inl ⟨rfl, fun hZero => hNodes (List.length_eq_zero_iff.mp hZero),
    free_hanging hParent⟩)

/-- Built below an id, a graph has the same nodes and one edge to each of them: what it has by
itself, and an edge from the id to every top. A layout draws it in the same way, unless the id is
that of one of the nodes: then it has no root and stays as it is. -/
theorem buildUnder_hangs (policy : Policy) (parent : String) (t : Tree) :
    let graph : Graph α := Graph.build policy t
    let hanging : Graph α := Graph.buildUnder policy parent t
    hanging.nodes = graph.nodes ∧
    hanging.edges.map Edge.target = hanging.nodes.map Node.id ∧
    graph.edges.Sublist hanging.edges ∧
    hanging.edges.Perm (graph.edges ++ graph.tops.map fun node => .between parent node.id) ∧
    (parent ∉ graph.nodes.map Node.id → ∀ g,
      arrange g hanging.nodes hanging.edges = arrange g graph.nodes graph.edges) ∧
    (parent ∈ graph.nodes.map Node.id → ∀ g,
      arrange g hanging.nodes hanging.edges = .error .noRoot ∧
        layout g hanging.nodes hanging.edges = hanging.nodes) := by
  intro graph hanging
  have hGraph : graph = .described policy none t := build_eq_described policy t
  have hHanging : hanging = .described policy (some parent) t :=
    buildUnder_eq_described policy parent t
  have hIds : graph.nodes.map Node.id = (t.emitted policy).map (t.idAt policy) := by
    rw [hGraph, ids_described]
  rw [hIds, hGraph, hHanging]
  refine ⟨rfl, targets_hanging, ?_, edges_hanging_perm, arrange_hanging_of_notMem, ?_⟩
  · rw [edges_hanging, edges_described]
    exact filterMap_sublist_map_getD _ _ _
  · intro hParent g
    exact ⟨arrange_hanging_of_mem hParent g, layout_of_error (arrange_hanging_of_mem hParent g)⟩

end SyntaxDrawing
