import SyntaxDrawing.Proofs.Graph.RootedTree
import SyntaxDrawing.Proofs.Tree.Part

/-!
# The graph of a part

The graph of a value stands in the graph of every document that holds the value as a node. Its nodes
are there one behind the other, its edges are those between them, and only the numbers in the ids
are others: they go on from the nodes before.
-/

namespace SyntaxDrawing

variable {α : Type}

def Node.rename (f : String → String) (node : Node α) : Node α :=
  { node with id := f node.id }

def Edge.rename (f : String → String) (e : Edge) : Edge :=
  .between (f e.source) (f e.target)

/-- A graph that stands in another one behind the nodes `before`. Nodes keep all but the numbers in
their ids, which grow by the number of nodes with the same tag before. -/
structure Graph.PartOf (part whole : Graph α) (before : List (Node α))
    (rename : String → String) : Prop where
  nodes : ∃ after, whole.nodes = before ++ part.nodes.map (Node.rename rename) ++ after
  numbered : ∀ node ∈ part.nodes, ∃ k, node.id = Draft.idOf node.source.tag k
  renumbers : ∀ tag k, rename (Draft.idOf tag k) =
    Draft.idOf tag (k + before.countP fun node => node.source.tag = tag)
  edges : (whole.edges.filter fun e => e.source ∈ part.nodes.map (rename ·.id) ∧
    e.target ∈ part.nodes.map (rename ·.id)) = part.edges.map (Edge.rename rename)
  closed : ∀ e ∈ whole.edges, e.source ∈ part.nodes.map (rename ·.id) →
    e.target ∈ part.nodes.map (rename ·.id)

section

variable {policy : Policy} {t : Tree} {p : Occurrence} {before after : List Occurrence}
  {rename : String → String}

theorem idAt_nest
    (hSplit : t.emitted policy = before ++ (p.value.emitted policy).map p.nest ++ after)
    (hRename : Renumbers (fun tag => (before.map fun q => q.value.tag).count tag) rename) :
    ∀ q ∈ p.value.emitted policy, t.idAt policy (p.nest q) = rename (p.value.idAt policy q) := by
  have hIds := idsOf_tags_emitted policy t
  obtain ⟨onward, hOnward⟩ := exists_renumbers
    (((before.map fun q => q.value.tag) ++
      (p.value.emitted policy).map fun q => q.value.tag).count ·)
  have hTags : ((p.value.emitted policy).map p.nest).map (fun q => q.value.tag) =
      (p.value.emitted policy).map fun q => q.value.tag := by
    rw [List.map_map]
    rfl
  rw [hSplit, List.map_append, List.map_append, hTags, idsOf_append hOnward, idsOf_append hRename,
    idsOf_tags_emitted, List.map_append, List.map_append] at hIds
  have hUpTo := (List.append_inj hIds (by simp)).1
  have hPart := (List.append_inj hUpTo (by simp)).2
  rw [List.map_map, List.map_map] at hPart
  exact fun q hq => (List.map_inj_left.mp hPart q hq).symm

/-- The ids of a part belong to what the value holds. -/
theorem idAt_mem_part_iff (hp : p ∈ t.emitted policy)
    (hId : ∀ q ∈ p.value.emitted policy, t.idAt policy (p.nest q) = rename (p.value.idAt policy q))
    {r : Occurrence} (hr : r ∈ t.emitted policy) :
    t.idAt policy r ∈ (p.value.emitted policy).map (fun q => rename (p.value.idAt policy q)) ↔
      p.Holds r := by
  rw [← Tree.exists_nest_iff hp hr, List.mem_map]
  constructor
  · rintro ⟨q, hq, hSame⟩
    exact ⟨q, hq, eq_of_idAt_eq (Tree.nest_mem_emitted hp hq).1 hr ((hId q hq).trans hSame)⟩
  · rintro ⟨q, hq, rfl⟩
    exact ⟨q, hq, (hId q hq).symm⟩

def edgeAt? (policy : Policy) (t : Tree) (r : Occurrence) : Option Edge :=
  (r.nearest? policy).map fun s => .between (t.idAt policy s) (t.idAt policy r)

theorem edges_described (α : Type) [Coordinate α] (policy : Policy) (t : Tree) :
    (Graph.described policy none t : Graph α).edges =
      (t.emitted policy).filterMap (edgeAt? policy t) := by
  rw [Graph.described]
  apply List.filterMap_congr
  intro p _
  rw [Option.or_none, Option.map_map]
  rfl

section

variable {names : List String} (hp : p ∈ t.emitted policy)
  (hId : ∀ q ∈ p.value.emitted policy, t.idAt policy (p.nest q) = rename (p.value.idAt policy q))
  (hNames : ∀ r ∈ t.emitted policy, t.idAt policy r ∈ names ↔ p.Holds r)

include hNames in
/-- An edge with an end outside a part is no edge of it. -/
theorem filter_edgeAt?_of_not {r : Occurrence} (hr : r ∈ t.emitted policy)
    (hNot : ∀ s, r.nearest? policy = some s → ¬ (p.Holds s ∧ p.Holds r)) :
    (edgeAt? policy t r).filter (fun e => e.source ∈ names ∧ e.target ∈ names) = none := by
  cases hNearest : r.nearest? policy with
  | none => simp [edgeAt?, hNearest]
  | some s =>
    have hNot := hNot s hNearest
    rw [← hNames s (Tree.mem_emitted_of_nearest? hr hNearest), ← hNames r hr] at hNot
    simpa [edgeAt?, hNearest, Edge.between] using hNot

include hp hId hNames in
theorem filter_edgeAt?_nest {q : Occurrence} (hq : q ∈ p.value.emitted policy) :
    (edgeAt? policy t (p.nest q)).filter (fun e => e.source ∈ names ∧ e.target ∈ names) =
      (edgeAt? policy p.value q).map (Edge.rename rename) := by
  obtain ⟨hNested, hHeld⟩ := Tree.nest_mem_emitted hp hq
  have hNearest := Occurrence.nearest?_nest (Tree.mem_emitted_iff.mp hp).2
    (Tree.mem_emitted_iff.mp hq).1
  cases hOwn : q.nearest? policy with
  | none =>
    have hNoEdge : edgeAt? policy p.value q = none := by rw [edgeAt?, hOwn, Option.map_none]
    rw [hOwn] at hNearest
    rw [hNoEdge]
    exact filter_edgeAt?_of_not hNames hNested fun s hs hBoth =>
      Tree.not_holds_of_nearest? hp (hNearest.symm.trans hs) hBoth.1
  | some s =>
    have hs := Tree.mem_emitted_of_nearest? hq hOwn
    obtain ⟨hsNested, hsHeld⟩ := Tree.nest_mem_emitted hp hs
    rw [hOwn] at hNearest
    have hSource := (hNames _ hsNested).mpr hsHeld
    have hTarget := (hNames _ hNested).mpr hHeld
    rw [hId s hs] at hSource
    rw [hId q hq] at hTarget
    simp [edgeAt?, hNearest, hOwn, hId s hs, hId q hq, Edge.rename, Edge.between, hSource, hTarget]

include hp hId hNames in
theorem filter_edges_described (α : Type) [Coordinate α] :
    ((Graph.described policy none t : Graph α).edges.filter fun e =>
      e.source ∈ names ∧ e.target ∈ names) =
        (Graph.described policy none p.value : Graph α).edges.map (Edge.rename rename) := by
  obtain ⟨before, after, hSplit, hRest⟩ := Tree.emitted_split hp
  have hNone : ∀ r ∈ before ++ after,
      (edgeAt? policy t r).filter (fun e => e.source ∈ names ∧ e.target ∈ names) = none := by
    intro r hr
    apply filter_edgeAt?_of_not hNames
    · rw [hSplit]
      rcases List.mem_append.mp hr with hBefore | hAfter
      · exact List.mem_append_left _ (List.mem_append_left _ hBefore)
      · exact List.mem_append_right _ hAfter
    · exact fun _ _ hBoth => hRest r hr hBoth.2
  have hBefore := List.filterMap_eq_nil_iff.mpr fun r hr => hNone r (List.mem_append_left _ hr)
  have hAfter := List.filterMap_eq_nil_iff.mpr fun r hr => hNone r (List.mem_append_right _ hr)
  rw [edges_described, edges_described, List.filter_filterMap, hSplit, List.filterMap_append,
    List.filterMap_append, hBefore, hAfter, List.nil_append, List.append_nil, List.filterMap_map,
    List.map_filterMap]
  exact List.filterMap_congr fun q hq => filter_edgeAt?_nest hp hId hNames hq

end

variable [Coordinate α]

theorem names_described (rename : String → String) :
    (Graph.described policy none t : Graph α).nodes.map (rename ·.id) =
      (t.emitted policy).map fun q => rename (t.idAt policy q) := by
  rw [Graph.described, List.map_map]
  rfl

/-- The graph of an emitted value is a part of the graph of the document that holds it. -/
theorem described_partOf (hp : p ∈ t.emitted policy) :
    ∃ (before : List (Node α)) (rename : String → String),
      (t.emitted policy)[before.length]? = some p ∧
      (Graph.described policy none p.value).PartOf (.described policy none t) before rename := by
  obtain ⟨before, after, hSplit, -⟩ := Tree.emitted_split hp
  obtain ⟨rename, hRename⟩ :=
    exists_renumbers fun tag => (before.map fun q => q.value.tag).count tag
  have hId := idAt_nest hSplit hRename
  have hNames := fun r hr => idAt_mem_part_iff hp hId (r := r) hr
  refine ⟨before.map (nodeAt α policy t), rename, ?_, ?_⟩
  · obtain ⟨rest, hFirst⟩ := Tree.emitted_of_emits (Tree.mem_emitted_iff.mp hp).2
    rw [hSplit, hFirst]
    simp [Occurrence.nest_top]
  refine ⟨⟨after.map (nodeAt α policy t), ?_⟩, ?_, ?_, ?_, ?_⟩
  · have hBlock : ((p.value.emitted policy).map p.nest).map (nodeAt α policy t) =
        (Graph.described policy none p.value : Graph α).nodes.map (Node.rename rename) := by
      rw [Graph.described, List.map_map, List.map_map]
      apply List.map_congr_left
      intro q hq
      rw [Function.comp_apply, nodeAt, hId q hq]
      rfl
    rw [← hBlock, Graph.described, hSplit, List.map_append, List.map_append]
  · intro node hNode
    obtain ⟨q, -, rfl⟩ := List.mem_map.mp hNode
    exact ⟨_, rfl⟩
  · intro tag k
    have hCount : (before.map fun q => q.value.tag).count tag =
        (before.map (nodeAt α policy t)).countP fun node => node.source.tag = tag := by
      rw [List.count, List.countP_map, List.countP_map]
      rfl
    rw [← hCount]
    exact hRename tag k
  · rw [names_described]
    exact filter_edges_described hp hId hNames α
  · rw [names_described]
    intro e he hSource
    rw [edges_described, List.mem_filterMap] at he
    obtain ⟨r, hr, hEdge⟩ := he
    obtain ⟨s, hs, rfl⟩ := Option.map_eq_some_iff.mp hEdge
    have hHolds := (hNames s (Tree.mem_emitted_of_nearest? hr hs)).mp hSource
    have hInside := Occurrence.holds_of_mem_around (Tree.mem_emitted_iff.mp hr).1
      (List.mem_of_find?_eq_some hs)
    exact (hNames r hr).mpr (hHolds.trans hInside)

end

end SyntaxDrawing
