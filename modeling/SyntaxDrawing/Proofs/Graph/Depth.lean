import SyntaxDrawing.Proofs.Graph.Contraction
import SyntaxDrawing.Proofs.Graph.Forest

/-!
# Depths in a graph

The depth of an id is the number of edges on the way from a node that no edge leads to. In a built
graph the depth of a node is the number of nodes made from what encloses its source.
-/

namespace SyntaxDrawing

variable {α : Type}

theorem Graph.mem_tops_iff {graph : Graph α} {node : Node α} :
    node ∈ graph.tops ↔ node ∈ graph.nodes ∧ ∀ s, ¬ graph.Leads s node.id := by
  rw [Graph.tops, List.mem_filter, decide_eq_true_eq, List.mem_map]
  apply and_congr_right
  intro _
  constructor
  · rintro hNone s ⟨e, he, -, hTarget⟩
    exact hNone ⟨e, he, hTarget⟩
  · rintro hNone ⟨e, he, hTarget⟩
    exact hNone e.source ⟨e, he, rfl, hTarget⟩

inductive Graph.AtDepth (graph : Graph α) : String → Nat → Prop
  | top {node : Node α} (h : node ∈ graph.tops) : AtDepth graph node.id 0
  | child {s u : String} {k : Nat} (hs : AtDepth graph s k) (h : graph.Leads s u) :
      AtDepth graph u (k + 1)

theorem Graph.atDepth_iff {graph : Graph α} {id : String} {k : Nat} :
    graph.AtDepth id k ↔ (∃ node ∈ graph.tops, node.id = id) ∧ k = 0 ∨
      ∃ s j, graph.AtDepth s j ∧ graph.Leads s id ∧ k = j + 1 := by
  constructor
  · intro h
    cases h with
    | top hTop => exact Or.inl ⟨⟨_, hTop, rfl⟩, rfl⟩
    | child hs hLeads => exact Or.inr ⟨_, _, hs, hLeads, rfl⟩
  · rintro (⟨⟨node, hTop, rfl⟩, rfl⟩ | ⟨s, j, hs, hLeads, rfl⟩)
    · exact .top hTop
    · exact hs.child hLeads

theorem Graph.Leads.source_unique {graph : Graph α}
    (hOnce : (graph.edges.map Edge.target).Nodup) {s s' u : String} (h : graph.Leads s u)
    (h' : graph.Leads s' u) : s = s' := by
  obtain ⟨e, he, rfl, hTarget⟩ := h
  obtain ⟨e', he', rfl, hTarget'⟩ := h'
  rw [List.inj_on_of_nodup_map hOnce he he' (hTarget.trans hTarget'.symm)]

/-- If no two edges have a target in common, no id has two depths. -/
theorem Graph.AtDepth.unique {graph : Graph α} (hOnce : (graph.edges.map Edge.target).Nodup)
    {id : String} {k k' : Nat} (h : graph.AtDepth id k) (h' : graph.AtDepth id k') : k = k' := by
  induction h generalizing k' with
  | top hTop =>
    rcases Graph.atDepth_iff.mp h' with ⟨-, rfl⟩ | ⟨s, j, -, hLeads, -⟩
    · rfl
    · exact absurd hLeads ((Graph.mem_tops_iff.mp hTop).2 s)
  | child _ hLeads ih =>
    rcases Graph.atDepth_iff.mp h' with ⟨⟨node, hTop, rfl⟩, -⟩ | ⟨s, j, hs, hLeads', rfl⟩
    · exact absurd hLeads ((Graph.mem_tops_iff.mp hTop).2 _)
    · rw [ih (hLeads.source_unique hOnce hLeads' ▸ hs)]

variable [Coordinate α] {policy : Policy} {t : Tree}

theorem build_eq_described (policy : Policy) (t : Tree) :
    Graph.build policy t = (Graph.described policy none t : Graph α) :=
  visit_graph_eq_described policy none t

theorem buildUnder_eq_described (policy : Policy) (parent : String) (t : Tree) :
    Graph.buildUnder policy parent t = (Graph.described policy (some parent) t : Graph α) :=
  visit_graph_eq_described policy (some parent) t

theorem ids_described (policy : Policy) (outer : Option String) (t : Tree) :
    (Graph.described policy outer t : Graph α).nodes.map Node.id =
      (t.emitted policy).map (t.idAt policy) := by
  rw [Graph.described, List.map_map]
  rfl

theorem targets_described (policy : Policy) (t : Tree) :
    (Graph.described policy none t : Graph α).edges.map Edge.target =
      ((t.emitted policy).filter fun p => (p.nearest? policy).isSome).map (t.idAt policy) := by
  rw [Graph.described, List.map_filterMap, ← List.filterMap_eq_map, ← List.filterMap_eq_filter,
    List.filterMap_filterMap]
  apply List.filterMap_congr
  intro p _
  cases hNearest : p.nearest? policy with
  | none => simp [Option.guard, hNearest]
  | some q => simp [Option.guard, hNearest, Edge.between]

theorem nodup_targets_described (policy : Policy) (t : Tree) :
    ((Graph.described policy none t : Graph α).edges.map Edge.target).Nodup := by
  rw [targets_described]
  exact (List.filter_sublist.map _).nodup (nodup_map_idAt policy t)

theorem tops_described (policy : Policy) (t : Tree) :
    (Graph.described policy none t : Graph α).tops =
      (t.tops policy).map (nodeAt α policy t) := by
  rw [Graph.tops, targets_described, Tree.tops, Graph.described, List.filter_map]
  congr 1
  apply List.filter_congr
  intro p hp
  rw [Function.comp_apply, decide_eq_decide, Occurrence.level_eq_zero_iff]
  constructor
  · intro hNot
    by_contra hSome
    refine hNot (List.mem_map.mpr ⟨p, List.mem_filter.mpr ⟨hp, ?_⟩, rfl⟩)
    rwa [Option.isSome_iff_ne_none]
  · intro hNone hMem
    obtain ⟨q, hq, hId⟩ := List.mem_map.mp hMem
    obtain ⟨hq, hSome⟩ := List.mem_filter.mp hq
    rw [eq_of_idAt_eq hq hp hId, hNone] at hSome
    cases hSome

theorem atDepth_described {p : Occurrence} (hp : p ∈ t.emitted policy) :
    (Graph.described policy none t : Graph α).AtDepth (t.idAt policy p) (p.level policy) := by
  induction hLevel : p.level policy generalizing p with
  | zero =>
    have hTop : nodeAt α policy t p ∈ (Graph.described policy none t : Graph α).tops := by
      rw [tops_described]
      exact List.mem_map_of_mem (List.mem_filter.mpr ⟨hp, decide_eq_true hLevel⟩)
    exact .top hTop
  | succ k ih =>
    cases hNearest : p.nearest? policy with
    | none =>
      rw [(Occurrence.level_eq_zero_iff policy).mpr hNearest] at hLevel
      cases hLevel
    | some q =>
      rw [Occurrence.level_eq, hNearest] at hLevel
      have hDepth := ih (Tree.mem_emitted_of_nearest? hp hNearest) (Nat.succ.inj hLevel)
      exact hDepth.child ((leads_described_iff hp).mpr ⟨q, hNearest, rfl⟩)

end SyntaxDrawing
