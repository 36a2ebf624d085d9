import SyntaxDrawing.Proofs.Graph.RootedTree
import SyntaxDrawing.Proofs.Layout.Rational

/-!
# Grafting a tree onto a graph

A graph that is a tree stays one when the graph of a document, built below one of its nodes, is
added to it and shares no id with it. The tops of the document become the last children of that
node. So a graph that begins as the graph of a document and only grows in this way can always be
laid out, and every node has its place on the level of its depth.
-/

namespace SyntaxDrawing

open Coordinate Layout Relation

variable {α : Type}

def Graph.graft (graph added : Graph α) : Graph α :=
  ⟨graph.nodes ++ added.nodes, graph.edges ++ added.edges⟩

theorem Graph.leads_graft_iff {graph added : Graph α} {s u : String} :
    (graph.graft added).Leads s u ↔ graph.Leads s u ∨ added.Leads s u := by
  simp only [Graph.Leads, Graph.graft, List.mem_append, or_and_right, exists_or]

section

variable [Coordinate α] {policy : Policy} {t : Tree} {parent : String}

theorem edges_described_under (policy : Policy) (parent : String) (t : Tree) :
    (Graph.described policy (some parent) t : Graph α).edges = (t.emitted policy).map fun p =>
      .between (((p.nearest? policy).map (t.idAt policy)).getD parent) (t.idAt policy p) := by
  rw [← List.filterMap_eq_map, Graph.described]
  apply List.filterMap_congr
  intro p _
  rw [Function.comp_apply]
  cases p.nearest? policy <;> rfl

theorem leads_described_under_iff {s : String} {p : Occurrence} (hp : p ∈ t.emitted policy) :
    (Graph.described policy (some parent) t : Graph α).Leads s (t.idAt policy p) ↔
      ((p.nearest? policy).map (t.idAt policy)).getD parent = s := by
  simp only [Graph.Leads, edges_described_under, List.mem_map]
  constructor
  · rintro ⟨_, ⟨q, hq, rfl⟩, hSource, hTarget⟩
    rw [← eq_of_idAt_eq hq hp hTarget]
    exact hSource
  · rintro rfl
    exact ⟨_, ⟨p, hp, rfl⟩, rfl, rfl⟩

theorem leads_of_described {s u : String}
    (h : (Graph.described policy none t : Graph α).Leads s u) :
    (Graph.described policy (some parent) t : Graph α).Leads s u := by
  obtain ⟨e, he, rfl, rfl⟩ := id h
  obtain ⟨p, hp, hEdge⟩ := List.mem_filterMap.mp he
  obtain ⟨s, hs, rfl⟩ := Option.map_eq_some_iff.mp hEdge
  obtain ⟨q, hq, hId⟩ := (leads_described_iff hp).mp h
  refine (leads_described_under_iff hp).mpr ?_
  rw [hq]
  exact hId

/-- The children of an id below which no node of the document stands by itself. -/
theorem childIds_described_under {id : String}
    (hNew : id ∉ (t.emitted policy).map (t.idAt policy)) :
    (Graph.described policy (some parent) t : Graph α).childIds id =
      if id = parent then (Graph.described policy none t : Graph α).tops.map Node.id else [] := by
  have hSource : ∀ p ∈ t.emitted policy,
      (((p.nearest? policy).map (t.idAt policy)).getD parent = id ↔
        p.level policy = 0 ∧ id = parent) := by
    intro p hp
    rw [Occurrence.level_eq_zero_iff]
    cases hNearest : p.nearest? policy with
    | none => simp [eq_comm]
    | some q =>
      have hMem := List.mem_map_of_mem (f := t.idAt policy)
        (Tree.mem_emitted_of_nearest? hp hNearest)
      simp only [Option.map_some, Option.getD_some, reduceCtorEq, false_and, iff_false]
      exact fun hId => hNew (hId ▸ hMem)
  rw [Graph.childIds, edges_described_under, List.filter_map, List.map_map, tops_described,
    List.map_map, Tree.tops]
  split
  · next hParent =>
    congr 1
    apply List.filter_congr
    intro p hp
    rw [Function.comp_apply, decide_eq_decide]
    exact (hSource p hp).trans (and_iff_left hParent)
  · next hParent =>
    rw [List.map_eq_nil_iff, List.filter_eq_nil_iff]
    intro p hp hId
    exact hParent ((hSource p hp).mp (of_decide_eq_true hId)).2

variable {graph : Graph α} {root : Node α}

theorem tops_graft
    (hNew : (graph.nodes.map Node.id).Disjoint ((t.emitted policy).map (t.idAt policy))) :
    (graph.graft (.described policy (some parent) t)).tops = graph.tops := by
  have hTargets : (Graph.described policy (some parent) t : Graph α).edges.map Edge.target =
      (t.emitted policy).map (t.idAt policy) := by
    rw [edges_described_under, List.map_map]
    rfl
  rw [Graph.tops, Graph.tops, Graph.graft, List.map_append, hTargets, List.filter_append]
  have hAdded : (Graph.described policy (some parent) t : Graph α).nodes.filter (fun node =>
      node.id ∉ graph.edges.map Edge.target ++ (t.emitted policy).map (t.idAt policy)) = [] := by
    -- Below a parent every added node is the target of an added edge, the tops of the document too.
    rw [List.filter_eq_nil_iff]
    intro node hNode hNot
    refine of_decide_eq_true hNot (List.mem_append_right _ ?_)
    rw [← ids_described (α := α) policy (some parent)]
    exact List.mem_map_of_mem hNode
  rw [hAdded, List.append_nil]
  apply List.filter_congr
  intro node hNode
  have hOld := hNew (List.mem_map_of_mem hNode)
  rw [decide_eq_decide, List.mem_append, not_or, and_iff_left hOld]

theorem Graph.AtDepth.graft
    (hNew : (graph.nodes.map Node.id).Disjoint ((t.emitted policy).map (t.idAt policy)))
    {id : String} {k : Nat} (hDepth : graph.AtDepth id k) :
    (graph.graft (.described policy (some parent) t)).AtDepth id k := by
  induction hDepth with
  | top hTop => exact .top (tops_graft hNew ▸ hTop)
  | child _ hLeads ih => exact ih.child (Graph.leads_graft_iff.mpr (Or.inl hLeads))

theorem atDepth_grafted
    (hNew : (graph.nodes.map Node.id).Disjoint ((t.emitted policy).map (t.idAt policy)))
    {d : Nat} (hParent : graph.AtDepth parent d) {id : String} {k : Nat}
    (hDepth : (Graph.described policy none t : Graph α).AtDepth id k) :
    (graph.graft (.described policy (some parent) t)).AtDepth id (d + 1 + k) := by
  induction hDepth with
  | @top node hTop =>
    rw [tops_described] at hTop
    obtain ⟨p, hp, rfl⟩ := List.mem_map.mp hTop
    obtain ⟨hp, hLevel⟩ := List.mem_filter.mp hp
    refine (hParent.graft hNew).child (Graph.leads_graft_iff.mpr (Or.inr ?_))
    refine (leads_described_under_iff hp).mpr ?_
    rw [(Occurrence.level_eq_zero_iff policy).mp (of_decide_eq_true hLevel)]
    rfl
  | child _ hLeads ih =>
    exact ih.child (Graph.leads_graft_iff.mpr (Or.inr (leads_of_described hLeads)))

theorem Graph.RootedTree.graft (h : graph.RootedTree root)
    (hParent : parent ∈ graph.nodes.map Node.id)
    (hNew : (graph.nodes.map Node.id).Disjoint ((t.emitted policy).map (t.idAt policy))) :
    (graph.graft (.described policy (some parent) t)).RootedTree root := by
  have hIds : (graph.graft (.described policy (some parent) t)).nodes.map Node.id =
      graph.nodes.map Node.id ++ (t.emitted policy).map (t.idAt policy) := by
    rw [Graph.graft, List.map_append, ids_described]
  have hTops : (graph.graft (.described policy (some parent) t)).tops = [root] := by
    rw [tops_graft hNew, h.tops]
  refine ⟨?_, ?_, ?_, ?_, ?_⟩
  · rw [hIds, List.nodup_append']
    exact ⟨h.nodup, nodup_map_idAt policy t, hNew⟩
  · intro e he
    rw [hIds, List.mem_append, List.mem_append]
    rcases List.mem_append.mp he with hOld | hAdded
    · exact ⟨Or.inl (h.ends e hOld).1, Or.inl (h.ends e hOld).2⟩
    · rw [edges_described_under] at hAdded
      obtain ⟨p, hp, rfl⟩ := List.mem_map.mp hAdded
      refine ⟨?_, Or.inr (List.mem_map_of_mem hp)⟩
      cases hNearest : p.nearest? policy with
      | none => exact Or.inl hParent
      | some q =>
        exact Or.inr (List.mem_map_of_mem (Tree.mem_emitted_of_nearest? hp hNearest))
  · rw [Graph.graft, List.map_append, edges_described_under, List.map_map, List.nodup_append']
    refine ⟨h.once, nodup_map_idAt policy t, ?_⟩
    intro id hOld hAdded
    obtain ⟨e, he, rfl⟩ := List.mem_map.mp hOld
    exact hNew (h.ends e he).2 hAdded
  · exact hTops
  · intro id hid
    rw [hIds] at hid
    rcases List.mem_append.mp hid with hOld | hAdded
    · obtain ⟨k, hk⟩ := h.exists_depth hOld
      exact (hk.graft hNew).reaches hTops
    · obtain ⟨p, hp, rfl⟩ := List.mem_map.mp hAdded
      obtain ⟨d, hd⟩ := h.exists_depth hParent
      exact (atDepth_grafted hNew hd (atDepth_described hp)).reaches hTops

/-- What a graph gains below a node: it stays a tree with its root, the tops of what is added become
the last children of the node, and all that is added keeps its depth, counted from there. -/
structure Graph.GrownBelow (graph : Graph α) (root : Node α) (parent : String)
    (added grown : Graph α) : Prop where
  tree : grown.RootedTree root
  children : grown.childIds parent = graph.childIds parent ++ added.tops.map Node.id
  others : ∀ id ∈ graph.nodes.map Node.id, id ≠ parent → grown.childIds id = graph.childIds id
  depths : ∀ id ∈ grown.nodes.map Node.id, ∃! k, grown.AtDepth id k
  kept : ∀ id k, graph.AtDepth id k → grown.AtDepth id k
  below : ∀ d, graph.AtDepth parent d → ∀ id k, added.AtDepth id k →
    grown.AtDepth id (d + 1 + k)

omit [Coordinate α] in
theorem childIds_graft (graph added : Graph α) (id : String) :
    (graph.graft added).childIds id = graph.childIds id ++ added.childIds id := by
  simp only [Graph.childIds, Graph.graft, List.filter_append, List.map_append]

theorem Graph.RootedTree.grownBelow (h : graph.RootedTree root)
    (hParent : parent ∈ graph.nodes.map Node.id)
    (hNew : (graph.nodes.map Node.id).Disjoint ((t.emitted policy).map (t.idAt policy))) :
    graph.GrownBelow root parent (.described policy none t)
      (graph.graft (.described policy (some parent) t)) := by
  have hTree := h.graft hParent hNew
  refine ⟨hTree, ?_, ?_, ?_, fun _ _ hDepth => hDepth.graft hNew,
    fun _ hd _ _ hDepth => atDepth_grafted hNew hd hDepth⟩
  · rw [childIds_graft, childIds_described_under (hNew hParent), if_pos rfl]
  · intro id hid hne
    rw [childIds_graft, childIds_described_under (hNew hid), if_neg hne, List.append_nil]
  · intro id hid
    obtain ⟨k, hk⟩ := hTree.exists_depth hid
    exact ⟨k, hk, fun _ hk' => hk'.unique hTree.once hk⟩

/-- The graph of a document, with graphs of further documents grafted below its nodes one after the
other under either policy. -/
inductive Graph.Grafted : Graph α → Prop
  | build (document : Json.Value) : Grafted (.build .emit (Tree.ofJson document))
  | graft {graph : Graph α} (h : Grafted graph) {parent : String}
      (hParent : parent ∈ graph.nodes.map Node.id) (policy : Policy) (document : Json.Value)
      (hNew : (graph.nodes.map Node.id).Disjoint
        ((Graph.build policy (Tree.ofJson document) : Graph α).nodes.map Node.id)) :
      Grafted (graph.graft (.buildUnder policy parent (Tree.ofJson document)))

theorem Graph.Grafted.exists_root (h : graph.Grafted) : ∃ root, graph.RootedTree root := by
  induction h with
  | build document =>
    rw [build_eq_described]
    exact ⟨_, described_rootedTree (Tree.tops_emit _)⟩
  | graft _ hParent policy document hNew ih =>
    obtain ⟨root, hRoot⟩ := ih
    rw [build_eq_described, ids_described] at hNew
    rw [buildUnder_eq_described]
    exact ⟨root, hRoot.graft hParent hNew⟩

end

/-- A document grafted below a node of a tree makes the tree grow there and keeps it one. So
whatever has been grafted onto the graph of a document, it can be laid out, with every node in its
place. -/
theorem graft_grows (α : Type) [Coordinate α] :
    (∀ (graph : Graph α) (root : Node α) (parent : String) (policy : Policy)
      (document : Json.Value),
      let added : Graph α := .build policy (Tree.ofJson document)
      graph.RootedTree root → parent ∈ graph.nodes.map Node.id →
        (graph.nodes.map Node.id).Disjoint (added.nodes.map Node.id) →
          graph.GrownBelow root parent added
            (graph.graft (.buildUnder policy parent (Tree.ofJson document))) ∧
          ∀ id ∈ added.nodes.map Node.id, ∃! k, added.AtDepth id k) ∧
    ∀ graph : Graph α, graph.Grafted → ∃ root, graph.RootedTree root ∧
      ∀ g : Geometry α, ∃ summary placed, arrange g graph.nodes graph.edges = .ok (summary, placed) ∧
        summary.root = root.id ∧ summary.nodeCount = graph.nodes.length ∧
        List.Forall₂ (Node.PlacedAtDepth graph g) graph.nodes placed := by
  constructor
  · intro graph root parent policy document added hTree hParent hNew
    have hAdded : added = .described policy none (Tree.ofJson document) := build_eq_described _ _
    rw [hAdded, ids_described] at hNew ⊢
    rw [buildUnder_eq_described]
    refine ⟨hTree.grownBelow hParent hNew, ?_⟩
    intro id hid
    obtain ⟨p, hp, rfl⟩ := List.mem_map.mp hid
    exact ⟨_, atDepth_described hp,
      fun _ hk => hk.unique (nodup_targets_described _ _) (atDepth_described hp)⟩
  · intro graph hGrafted
    obtain ⟨root, hTree⟩ := hGrafted.exists_root
    exact ⟨root, hTree, hTree.arrange⟩

def bareCall : Json.Value :=
  .object [("type", .string "call"), ("arguments", .array [])]

def twoArguments : Json.Value :=
  .object [("first", .object [("type", .string "name")]),
    ("second", .object [("type", .string "sum"), ("left", .object [("type", .string "name")])])]

theorem graft_grows_twoArguments :
    ∃ root, (Graph.build .emit (Tree.ofJson bareCall) : Graph ℚ).RootedTree root ∧
      let grown := (Graph.build .emit (Tree.ofJson bareCall) : Graph ℚ).graft
        (.buildUnder .skip "unnamed_1" (Tree.ofJson twoArguments))
      grown.RootedTree root ∧ grown.childIds "unnamed_1" = ["name_1", "sum_1"] ∧
        ∃ summary placed, arrange .standard grown.nodes grown.edges = .ok (summary, placed) ∧
          summary.nodeCount = 5 := by
  have hBuilt : (Graph.build .emit (Tree.ofJson bareCall) : Graph ℚ).Grafted := .build _
  have hParent : "unnamed_1" ∈
      (Graph.build .emit (Tree.ofJson bareCall) : Graph ℚ).nodes.map Node.id := by
    decide +kernel
  have hNew : ((Graph.build .emit (Tree.ofJson bareCall) : Graph ℚ).nodes.map Node.id).Disjoint
      ((Graph.build .skip (Tree.ofJson twoArguments) : Graph ℚ).nodes.map Node.id) := by
    have hNone : ∀ id ∈ (Graph.build .emit (Tree.ofJson bareCall) : Graph ℚ).nodes.map Node.id,
        id ∉ (Graph.build .skip (Tree.ofJson twoArguments) : Graph ℚ).nodes.map Node.id := by
      decide +kernel
    exact fun id hid => hNone id hid
  obtain ⟨root, hTree, -⟩ := (graft_grows ℚ).2 _ hBuilt
  obtain ⟨hGrown, -⟩ := (graft_grows ℚ).1 _ root _ _ _ hTree hParent hNew
  obtain ⟨_, -, hArrange⟩ := (graft_grows ℚ).2 _ (hBuilt.graft hParent .skip twoArguments hNew)
  obtain ⟨summary, placed, hOk, -, hCount, -⟩ := hArrange .standard
  refine ⟨root, hTree, hGrown.tree, ?_, summary, placed, hOk, ?_⟩
  · rw [hGrown.children]
    decide +kernel
  · rw [hCount]
    decide +kernel

end SyntaxDrawing
