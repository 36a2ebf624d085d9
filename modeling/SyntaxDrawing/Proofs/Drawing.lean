import SyntaxDrawing.Drawing
import SyntaxDrawing.Proofs.Graph.Forest
import SyntaxDrawing.Proofs.Layout.Grading
import Mathlib.Data.List.Forall2

/-!
# Drawings of whole documents

The layout knows a built graph by its ids only, yet the links that it finds there are the owners of
the outline. So the walk comes to a node on the level that the document gives it, and either all
nodes of a drawing are in their places or none has left the origin.
-/

namespace SyntaxDrawing

open Coordinate Layout

variable {α : Type} [Coordinate α] {policy : Policy} {rows : List Row}

abbrev nodesOfRows (α : Type) [Coordinate α] (rows : List Row) : List (Node α) :=
  (Graph.ofRows none rows).nodes

abbrev linksOfRows (α : Type) [Coordinate α] (rows : List Row) :
    List (Link (nodesOfRows α rows).length) :=
  resolve (nodeIds (nodesOfRows α rows)) (Graph.ofRows none rows : Graph α).edges

theorem length_nodesOfRows (rows : List Row) : (nodesOfRows α rows).length = rows.length := by
  simp [nodesOfRows, Graph.ofRows]

theorem exists_row_of_lt {k : Nat} (hk : k < (nodesOfRows α rows).length) :
    ∃ r id, rows[k]? = some r ∧ (nodesOfRows α rows)[k] = r.node id := by
  have hRow : k < rows.length := length_nodesOfRows (α := α) rows ▸ hk
  have hId : k < (idsOfRows rows).length := (length_idsOfRows rows).symm ▸ hRow
  exact ⟨rows[k], (idsOfRows rows)[k], List.getElem?_eq_getElem hRow, List.getElem_zipWith⟩

theorem getElem?_idsOfRows_eq_iff {k : Nat} {i : Fin (nodesOfRows α rows).length} :
    (idsOfRows rows)[k]? = some ((nodeIds (nodesOfRows α rows)).get i) ↔ k = i := by
  have hi : (idsOfRows rows)[i.val]? = some ((nodeIds (nodesOfRows α rows)).get i) := by
    rw [get_nodeIds, ← ids_ofRows (α := α) none, List.getElem?_map,
      List.getElem?_eq_getElem i.isLt]
    rfl
  constructor
  · intro hk
    rw [← hi] at hk
    have hLt : i.val < (idsOfRows rows).length := (List.getElem?_eq_some_iff.mp hi).1
    exact ((List.getElem?_inj hLt (nodup_idsOfRows rows)).mp hk.symm).symm
  · rintro rfl
    exact hi

/-- A layout links each node of an outline with its owner. -/
theorem mem_linksOfRows_iff {l : Link (nodesOfRows α rows).length} :
    l ∈ linksOfRows α rows ↔
      ∃ r, rows[l.target.val]? = some r ∧ r.owner = some l.source.val := by
  rw [mem_resolve_iff_of_injective (nodeIds_injective (nodup_ids_ofRows none rows))]
  constructor
  · rintro ⟨e, he, hSource, hTarget⟩
    obtain ⟨k, r, i, s, t, hRow, hOwner, hs, ht, rfl⟩ := mem_edges_ofRows.mp he
    have hi : i = l.source.val := getElem?_idsOfRows_eq_iff.mp (hs.trans (congrArg some hSource))
    have hk : k = l.target.val := getElem?_idsOfRows_eq_iff.mp (ht.trans (congrArg some hTarget))
    exact ⟨r, hk ▸ hRow, hi ▸ hOwner⟩
  · rintro ⟨r, hRow, hOwner⟩
    refine ⟨.between _ _, mem_edges_ofRows.mpr ⟨_, r, _, _, _, hRow, hOwner, ?_, ?_, rfl⟩, rfl, rfl⟩
    · exact getElem?_idsOfRows_eq_iff.mpr rfl
    · exact getElem?_idsOfRows_eq_iff.mpr rfl

def levelOfRow (policy : Policy) (rows : List Row) (k : Nat) : Nat :=
  (rows[k]?).elim 0 fun r => r.occurrence.level policy

theorem linksOfRows_graded (h : Linked policy rows) :
    Graded (linksOfRows α rows) fun i => levelOfRow policy rows i.val := by
  refine ⟨?_, ?_⟩
  · intro l hl
    obtain ⟨r, hRow, hOwner⟩ := mem_linksOfRows_iff.mp hl
    obtain ⟨q, hSource, hNearest⟩ := h.exists_owner hRow hOwner
    simp only [levelOfRow, hRow, hSource, Option.elim_some]
    rw [Occurrence.level_eq, hNearest]
  · intro i hNone
    have hi : i.val < rows.length := length_nodesOfRows (α := α) rows ▸ i.isLt
    have hRow := List.getElem?_eq_getElem hi
    simp only [levelOfRow, hRow, Option.elim_some]
    rw [Occurrence.level_eq_zero_iff, ← h.owner_eq_none_iff hRow]
    cases hOwner : rows[i.val].owner with
    | none => rfl
    | some j =>
      have hj := h.owner_lt hRow hOwner
      have hLink : (⟨⟨j, by omega⟩, i⟩ : Link _) ∈ linksOfRows α rows :=
        mem_linksOfRows_iff.mpr ⟨_, hRow, hOwner⟩
      exact absurd rfl (hNone _ hLink)

/-- The nodes on level zero are those of the tops. -/
theorem length_filter_levelOfRow {t : Tree} (hRows : rows.map Row.occurrence = t.emitted policy) :
    ((List.finRange (nodesOfRows α rows).length).filter fun i =>
      levelOfRow policy rows i.val = 0).length = (t.tops policy).length := by
  have hLevels : (List.finRange (nodesOfRows α rows).length).map
      (fun i => levelOfRow policy rows i.val) =
      (t.emitted policy).map (Occurrence.level policy) := by
    rw [← hRows, List.map_map]
    apply List.ext_getElem
    · simp [length_nodesOfRows]
    · intro k hk hk'
      rw [List.length_map] at hk'
      simp [levelOfRow, hk']
  have hCount := congrArg (List.countP (· = 0)) hLevels
  rw [List.countP_map, List.countP_map] at hCount
  rw [Tree.tops, ← List.countP_eq_length_filter, ← List.countP_eq_length_filter]
  exact hCount

theorem moveTo_origin_of_mem {node : Node α} (h : node ∈ nodesOfRows α rows) :
    node.moveTo .origin = node := by
  obtain ⟨k, hk, rfl⟩ := List.getElem_of_mem h
  obtain ⟨r, id, _, hNode⟩ := exists_row_of_lt hk
  rw [hNode]
  rfl

theorem sources_ofRows (rows : List Row) :
    (nodesOfRows α rows).map Node.source = (rows.map Row.occurrence).map Occurrence.value := by
  apply List.ext_getElem
  · simp [length_nodesOfRows]
  · intro k hk hk'
    rw [List.length_map] at hk
    obtain ⟨r, id, hRow, hNode⟩ := exists_row_of_lt hk
    obtain ⟨_, rfl⟩ := List.getElem?_eq_some_iff.mp hRow
    rw [List.getElem_map, List.getElem_map, List.getElem_map, hNode]
    rfl

section

variable (place : Fin (nodesOfRows α rows).length → Position α)

abbrev movedNodes : List (Node α) :=
  List.ofFn fun i => ((nodesOfRows α rows).get i).moveTo (place i)

theorem map_moveTo_origin_movedNodes :
    (movedNodes place).map (·.moveTo .origin) = nodesOfRows α rows := by
  apply List.ext_getElem
  · simp
  · intro k hk hk'
    rw [List.getElem_map, List.getElem_ofFn]
    exact moveTo_origin_of_mem (List.getElem_mem hk')

theorem map_source_movedNodes :
    (movedNodes place).map Node.source = (nodesOfRows α rows).map Node.source := by
  apply List.ext_getElem
  · simp
  · intro k hk hk'
    rw [List.getElem_map, List.getElem_map, List.getElem_ofFn]
    rfl

end

/-- A layout gives every node of an outline a position: on its level, or at the origin. -/
theorem exists_places {t : Tree} (hRows : rows.map Row.occurrence = t.emitted policy)
    (h : Linked policy rows) (g : Geometry α) :
    ∃ place : Fin (nodesOfRows α rows).length → Position α,
      layout g (nodesOfRows α rows) (Graph.ofRows none rows : Graph α).edges = movedNodes place ∧
      ((t.tops policy).length = 1 → ∀ i, (levelOfRow policy rows i.val = 0 →
        (place i).x = g.originX) ∧
        (place i).y = ofCount (levelOfRow policy rows i.val) * g.levelHeight) ∧
      ((t.tops policy).length ≠ 1 → ∀ i, place i = .origin) := by
  have hGraded := linksOfRows_graded (α := α) h
  have hTops := length_filter_levelOfRow (α := α) hRows
  by_cases hOne : (t.tops policy).length = 1
  · obtain ⟨x, hRoot, hLayout⟩ := layout_of_graded (g := g) hGraded (hTops.trans hOne)
    refine ⟨_, hLayout, ?_, fun hMany => absurd hOne hMany⟩
    exact fun _ i => ⟨hRoot i, rfl⟩
  · have hLayout := layout_of_tops (g := g) hGraded fun hTop => hOne (hTops.symm.trans hTop)
    refine ⟨fun _ => .origin, ?_, fun hTop => absurd hTop hOne, fun _ _ => rfl⟩
    rw [hLayout]
    apply List.ext_getElem
    · simp
    · intro k hk _
      rw [List.getElem_ofFn]
      exact (moveTo_origin_of_mem (List.getElem_mem hk)).symm

structure Node.PlacedFor (policy : Policy) (g : Geometry α) (p : Occurrence) (node : Node α) :
    Prop where
  x : p.level policy = 0 → node.position.x = g.originX
  y : node.position.y = ofCount (p.level policy) * g.levelHeight

theorem forall₂_placedFor {g : Geometry α}
    {place : Fin (nodesOfRows α rows).length → Position α}
    (h : ∀ i, (levelOfRow policy rows i.val = 0 → (place i).x = g.originX) ∧
      (place i).y = ofCount (levelOfRow policy rows i.val) * g.levelHeight) :
    List.Forall₂ (Node.PlacedFor policy g) (rows.map Row.occurrence) (movedNodes place) := by
  rw [List.forall₂_iff_get]
  refine ⟨by simp [length_nodesOfRows], ?_⟩
  intro k hk hk'
  rw [List.length_map] at hk
  rw [List.length_ofFn] at hk'
  have hPlace := h ⟨k, hk'⟩
  have hLevel : levelOfRow policy rows k = rows[k].occurrence.level policy := by
    rw [levelOfRow, List.getElem?_eq_getElem hk]
    rfl
  simp only [hLevel] at hPlace
  rw [List.get_eq_getElem, List.get_eq_getElem, List.getElem_map, List.getElem_ofFn]
  exact ⟨hPlace.1, hPlace.2⟩

/-- A drawing moves the nodes of a graph and changes nothing else. With one top in the document,
every node has its place; otherwise all stay at the origin. -/
theorem drawJson_placed (policy : Policy) (g : Geometry α) (document : Json.Value) :
    let t := Tree.ofJson document
    let built : Graph α := Graph.build policy t
    let drawn := drawJson policy g document
    drawn.edges = built.edges ∧ drawn.nodes.map (·.moveTo .origin) = built.nodes ∧
      drawn.nodes.map Node.source = (t.emitted policy).map Occurrence.value ∧
      ((t.tops policy).length = 1 →
        List.Forall₂ (Node.PlacedFor policy g) (t.emitted policy) drawn.nodes) ∧
      ((t.tops policy).length ≠ 1 → ∀ node ∈ drawn.nodes, node.position = .origin) ∧
      (policy = .emit → t.tops policy = [.top t]) := by
  intro t built drawn
  obtain ⟨rows, hRows, hLinked, hGraph⟩ := exists_outline (α := α) policy none t
  have hBuilt : built = Graph.ofRows none rows := hGraph
  obtain ⟨place, hLayout, hOne, hMany⟩ := exists_places hRows hLinked g
  have hDrawn : drawn.nodes = movedNodes place := by
    rw [← hLayout, nodesOfRows, ← hBuilt]
    rfl
  refine ⟨rfl, ?_, ?_, ?_, ?_, ?_⟩
  · rw [hDrawn, hBuilt]
    exact map_moveTo_origin_movedNodes place
  · rw [hDrawn, map_source_movedNodes, sources_ofRows, hRows]
  · intro hTop
    rw [hDrawn, ← hRows]
    exact forall₂_placedFor (hOne hTop)
  · intro hTops node hNode
    rw [hDrawn] at hNode
    obtain ⟨i, rfl⟩ := List.mem_ofFn.mp hNode
    exact hMany hTops i
  · rintro rfl
    exact t.tops_emit

/-- Where the mapping around them is skipped, two lists are both tops. -/
example : ((Tree.mapping [("a", .sequence []), ("b", .sequence [])]).tops .skip).length = 2 := by
  cbv

end SyntaxDrawing
