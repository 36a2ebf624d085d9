import SyntaxDrawing.Drawing
import SyntaxDrawing.Proofs.Graph.Part
import SyntaxDrawing.Proofs.Layout.Embedding

/-!
# A part is drawn as it would be drawn alone

Where a document is drawn as a tree, each value in it that is a node has a tree of its own inside.
The visits of that tree are spread over those of the whole, but each row in it is kept as it is. So
the part has the widths that it has alone, and all its nodes are moved by one step.
-/

namespace SyntaxDrawing

open Coordinate Layout

variable {α : Type}

namespace Graph.PartOf

variable {part whole : Graph α} {before : List (Node α)} {rename : String → String}
  {root top : Node α}

theorem rename_injOn (h : part.PartOf whole before rename) {s s' : String}
    (hs : s ∈ part.nodes.map Node.id) (hs' : s' ∈ part.nodes.map Node.id)
    (hSame : rename s = rename s') : s = s' := by
  obtain ⟨node, hNode, rfl⟩ := List.mem_map.mp hs
  obtain ⟨node', hNode', rfl⟩ := List.mem_map.mp hs'
  obtain ⟨k, hk⟩ := h.numbered node hNode
  obtain ⟨k', hk'⟩ := h.numbered node' hNode'
  rw [hk, hk', h.renumbers, h.renumbers] at hSame
  obtain ⟨hTag, hNumber⟩ := idOf_injective hSame
  rw [hTag] at hNumber
  rw [hk, hk', hTag, Nat.add_right_cancel hNumber]

theorem childIds_rename (h : part.PartOf whole before rename) (hPart : part.RootedTree root)
    {id : String} (hid : id ∈ part.nodes.map Node.id) :
    whole.childIds (rename id) = (part.childIds id).map rename := by
  have hName : rename id ∈ part.nodes.map (rename ·.id) := by
    obtain ⟨node, hNode, rfl⟩ := List.mem_map.mp hid
    exact List.mem_map_of_mem hNode
  have hInside : whole.edges.filter (fun e => e.source = rename id) =
      (part.edges.map (Edge.rename rename)).filter fun e => e.source = rename id := by
    rw [← h.edges, List.filter_filter]
    apply List.filter_congr
    intro e he
    by_cases hSource : e.source = rename id
    · have hTarget := h.closed e he (hSource ▸ hName)
      simp [hSource, hName, hTarget]
    · simp [hSource]
  rw [childIds, hInside, List.filter_map, List.map_map, childIds, List.map_map]
  have hSources :
      part.edges.filter ((fun e => decide (e.source = rename id)) ∘ Edge.rename rename) =
        part.edges.filter fun e => e.source = id := by
    apply List.filter_congr
    intro e he
    rw [Function.comp_apply, decide_eq_decide]
    exact ⟨h.rename_injOn (hPart.ends e he).1 hid, congrArg rename⟩
  rw [hSources]
  rfl

theorem atDepth_rename (h : part.PartOf whole before rename) (hTops : part.tops = [root])
    {d : Nat} (hRoot : whole.AtDepth (rename root.id) d) {id : String} {k : Nat}
    (hDepth : part.AtDepth id k) : whole.AtDepth (rename id) (d + k) := by
  induction hDepth with
  | top hTop =>
    rw [hTops, List.mem_singleton] at hTop
    exact hTop ▸ hRoot
  | child _ hLeads ih =>
    obtain ⟨e, he, rfl, rfl⟩ := hLeads
    have hMem : e.rename rename ∈ part.edges.map (Edge.rename rename) := List.mem_map_of_mem he
    rw [← h.edges] at hMem
    exact ih.child ⟨_, List.mem_of_mem_filter hMem, rfl, rfl⟩

theorem length_le (h : part.PartOf whole before rename) :
    before.length + part.nodes.length ≤ whole.nodes.length := by
  obtain ⟨after, hNodes⟩ := h.nodes
  simp only [hNodes, List.length_append, List.length_map]
  omega

def place (h : part.PartOf whole before rename) (i : Fin part.nodes.length) :
    Fin whole.nodes.length :=
  ⟨before.length + i, Nat.lt_of_lt_of_le (Nat.add_lt_add_left i.isLt _) h.length_le⟩

theorem get_place (h : part.PartOf whole before rename) (i : Fin part.nodes.length) :
    whole.nodes.get (h.place i) = (part.nodes.get i).rename rename := by
  obtain ⟨after, hNodes⟩ := h.nodes
  simp [place, hNodes]

variable [Coordinate α]

theorem get_nodeIds_place (h : part.PartOf whole before rename) (i : Fin part.nodes.length) :
    (nodeIds whole.nodes).get (h.place i) = rename ((nodeIds part.nodes).get i) := by
  rw [get_nodeIds, get_place, get_nodeIds]
  rfl

theorem embeds (h : part.PartOf whole before rename) (hPart : part.RootedTree root)
    (hNodup : (whole.nodes.map Node.id).Nodup) {small : List (Visit part.nodes.length)}
    {large : List (Visit whole.nodes.length)}
    (hSmall : ∀ v ∈ small, v.kept.map (nodeIds part.nodes).get =
      part.childIds (part.nodes.get v.node).id)
    (hAll : ∀ i, i ∈ large.map Visit.node)
    (hLarge : ∀ v ∈ large, v.kept.map (nodeIds whole.nodes).get =
      whole.childIds (whole.nodes.get v.node).id) : Embeds h.place small large := by
  intro v hv
  obtain ⟨u, hu, hNode⟩ := List.mem_map.mp (hAll (h.place v.node))
  refine ⟨u, hu, hNode, ?_⟩
  have hKept := hLarge u hu
  have hMem := List.mem_map_of_mem (f := Node.id) (List.get_mem part.nodes v.node)
  rw [hNode, h.get_place, Node.rename, h.childIds_rename hPart hMem, ← hSmall v hv,
    List.map_map] at hKept
  apply List.map_injective_iff.mpr (nodeIds_injective hNodup)
  rw [hKept, List.map_map]
  exact List.map_congr_left fun c _ => (h.get_nodeIds_place c).symm

end Graph.PartOf

def Position.translate (p : Position ℚ) (dx dy : ℚ) : Position ℚ :=
  ⟨p.x + dx, p.y + dy⟩

theorem Graph.layout_eq_of_tree [Coordinate α] {graph : Graph α} {g : Geometry α}
    {tree : SpanningTree graph.nodes.length}
    (hTree : spanningTree (nodeIds graph.nodes) graph.edges = .ok tree) :
    (graph.layout g).nodes = List.ofFn (tree.moved g graph.nodes) := by
  rw [Graph.layout, Layout.layout, arrange_eq_of_tree hTree]

/-- The trees of the two layouts, and the step between them: how far the root of the part is from
the place that it has alone. -/
theorem Graph.PartOf.exists_moved {part whole : Graph ℚ} {before : List (Node ℚ)}
    {rename : String → String} {root top : Node ℚ} (h : part.PartOf whole before rename)
    (hPart : part.RootedTree root) (hWhole : whole.RootedTree top) (g : Geometry ℚ) :
    ∃ small large, spanningTree (nodeIds part.nodes) part.edges = .ok small ∧
      spanningTree (nodeIds whole.nodes) whole.edges = .ok large ∧
      ∃ dx dy, ∀ i, large.moved g whole.nodes (h.place i) =
        ((small.moved g part.nodes i).rename rename).moveTo
          ((small.moved g part.nodes i).position.translate dx dy) := by
  obtain ⟨small, hSmall, hRoot, hSmallAll, hSmallVisits⟩ := hPart.exists_tree
  obtain ⟨large, hLarge, -, hLargeAll, hLargeVisits⟩ := hWhole.exists_tree
  have hSmallOrder := SpanningTree.levelOrder hSmall
  have hLargeOrder := SpanningTree.levelOrder hLarge
  have hEmbeds : Embeds h.place small.visits large.visits :=
    h.embeds hPart hWhole.nodup (fun v hv => (hSmallVisits v hv).2) hLargeAll
      fun v hv => (hLargeVisits v hv).2
  have hCentres := hEmbeds.get_centres (g := g) hSmallOrder hLargeOrder
  obtain ⟨u, hu, hTop⟩ := List.mem_map.mp (hLargeAll (h.place small.root))
  have hTopDepth := (hLargeVisits u hu).1
  rw [hTop, h.get_place, hRoot] at hTopDepth
  refine ⟨small, large, hSmall, hLarge, (large.centres g).get (h.place small.root) - g.originX,
    u.depth * g.levelHeight, ?_⟩
  intro i
  obtain ⟨v, hv, rfl⟩ := List.mem_map.mp (hSmallAll i)
  obtain ⟨w, hw, hNode, -⟩ := hEmbeds v hv
  -- Depths of visits are depths in the graphs, and these carry over from the part to the whole.
  have hDepth : w.depth = u.depth + v.depth := by
    have hDeep := (hLargeVisits w hw).1
    rw [hNode, h.get_place] at hDeep
    exact hDeep.unique hWhole.once (h.atDepth_rename hPart.tops hTopDepth (hSmallVisits v hv).1)
  have hX : (large.centres g).get (h.place v.node) = (small.centres g).get v.node +
      ((large.centres g).get (h.place small.root) - g.originX) := hCentres v hv
  have hY : (w.depth : ℚ) * g.levelHeight = v.depth * g.levelHeight + u.depth * g.levelHeight := by
    rw [hDepth, Nat.cast_add]
    ring
  rw [← hNode, SpanningTree.moved_visit hLargeOrder hw, SpanningTree.moved_visit hSmallOrder hv,
    hNode, h.get_place, hX, ofCount_rat, ofCount_rat, hY]
  rfl

theorem Graph.PartOf.layout {part whole : Graph ℚ} {before : List (Node ℚ)}
    {rename : String → String} {root top : Node ℚ} (h : part.PartOf whole before rename)
    (hPart : part.RootedTree root) (hWhole : whole.RootedTree top) (g : Geometry ℚ) :
    ∃ dx dy, ((whole.layout g).nodes.drop before.length).take part.nodes.length =
      (part.layout g).nodes.map fun node =>
        (node.rename rename).moveTo (node.position.translate dx dy) := by
  obtain ⟨small, large, hSmall, hLarge, dx, dy, hMoved⟩ := h.exists_moved hPart hWhole g
  refine ⟨dx, dy, ?_⟩
  rw [layout_eq_of_tree hSmall, layout_eq_of_tree hLarge, List.map_ofFn]
  apply List.ext_getElem
  · have hLength := h.length_le
    simp
    omega
  · intro k hk hk'
    rw [List.length_ofFn] at hk'
    rw [List.getElem_take, List.getElem_drop, List.getElem_ofFn, List.getElem_ofFn]
    exact hMoved ⟨k, hk'⟩

/-- The drawing of a value that is a node of a drawing with a single root: its nodes stand there one
behind the other, with other numbers in their ids and all moved by one step. -/
theorem drawJson_part (policy : Policy) (g : Geometry ℚ) (document : Json.Value)
    (hRoot : (Graph.build policy (Tree.ofJson document) : Graph ℚ).tops.length = 1)
    {p : Occurrence} (hp : p ∈ (Tree.ofJson document).emitted policy) :
    let whole : Graph ℚ := Graph.build policy (Tree.ofJson document)
    let part : Graph ℚ := Graph.build policy p.value
    ∃ (before : List (Node ℚ)) (rename : String → String),
      ((Tree.ofJson document).emitted policy)[before.length]? = some p ∧
      part.PartOf whole before rename ∧
      ∃ dx dy, ((drawJson policy g document).nodes.drop before.length).take part.nodes.length =
        (draw policy g p.value).nodes.map fun node =>
          (node.rename rename).moveTo (node.position.translate dx dy) := by
  intro whole part
  have hWhole : whole = .described policy none (Tree.ofJson document) := build_eq_described _ _
  have hPart : part = .described policy none p.value := build_eq_described _ _
  obtain ⟨before, rename, hPlace, hPartOf⟩ := described_partOf (α := ℚ) hp
  rw [build_eq_described, tops_described, List.length_map, List.length_eq_one_iff] at hRoot
  obtain ⟨top, hTop⟩ := hRoot
  have hPartTop := Tree.tops_of_emits (Tree.mem_emitted_iff.mp hp).2
  rw [← hWhole, ← hPart] at hPartOf
  refine ⟨before, rename, hPlace, hPartOf, ?_⟩
  exact hPartOf.layout (hPart ▸ described_rootedTree hPartTop)
    (hWhole ▸ described_rootedTree hTop) g

def nestedLists : Json.Value :=
  .array [.array [], .array [.array []]]

theorem drawJson_part_nestedLists :
    let p := (Occurrence.top (Tree.ofJson nestedLists)).child 1 (.sequence [.sequence []])
    (Graph.build .emit (Tree.ofJson nestedLists) : Graph ℚ).tops.length = 1 ∧
      p ∈ (Tree.ofJson nestedLists).emitted .emit ∧
      ∃ (before : List (Node ℚ)) (rename : String → String),
        (Graph.build .emit p.value).PartOf (.build .emit (Tree.ofJson nestedLists)) before rename ∧
        ∃ dx dy,
          ((drawJson .emit .standard nestedLists).nodes.drop before.length).take
            (Graph.build .emit p.value : Graph ℚ).nodes.length =
              (draw .emit .standard p.value).nodes.map fun node =>
                (node.rename rename).moveTo (node.position.translate dx dy) := by
  intro p
  have hRoot : (Graph.build .emit (Tree.ofJson nestedLists) : Graph ℚ).tops.length = 1 := by
    decide +kernel
  have hp : p ∈ (Tree.ofJson nestedLists).emitted .emit :=
    Tree.mem_emitted_iff.mpr ⟨.child .self rfl, rfl⟩
  obtain ⟨before, rename, -, hPartOf, hDrawn⟩ := drawJson_part .emit .standard nestedLists hRoot hp
  exact ⟨hRoot, hp, before, rename, hPartOf, hDrawn⟩

end SyntaxDrawing
