import SyntaxDrawing.Proofs.Layout.Links
import SyntaxDrawing.Proofs.Layout.Renaming
import SyntaxDrawing.Proofs.Layout.Separation
import Mathlib.Data.List.FinRange

/-!
# Nodes and edges in another order

If all ids differ, a layout does not depend on the order of the nodes, nor on that of the edges but
for those that leave the same node, nor on edges that name no node at one of their ends.
-/

namespace SyntaxDrawing.Layout

open Function

/-- The changes of a list of edges that a layout does not tell: another order in which edges from
the same node follow each other as before, and edges with an unknown end put in or taken out. -/
inductive Rearranged (ids : List String) : List Edge → List Edge → Prop
  | reorder {edges edges' : List Edge}
      (h : ∀ s, edges'.filter (fun e => e.source = s) = edges.filter fun e => e.source = s) :
      Rearranged ids edges edges'
  | insert {e : Edge} (h : ¬ Known ids e) (before after : List Edge) :
      Rearranged ids (before ++ after) (before ++ e :: after)
  | remove {e : Edge} (h : ¬ Known ids e) (before after : List Edge) :
      Rearranged ids (before ++ e :: after) (before ++ after)
  | trans {first second third : List Edge} (h : Rearranged ids first second)
      (h' : Rearranged ids second third) : Rearranged ids first third

theorem edgesFrom_insert {ids : List String} {e : Edge} (h : ¬ Known ids e) (s : String)
    (before after : List Edge) :
    edgesFrom ids s (before ++ e :: after) = edgesFrom ids s (before ++ after) := by
  simp only [edgesFrom, List.filter_append]
  rw [List.filter_cons_of_neg (by simp [h])]

theorem Rearranged.edgesFrom_eq {ids : List String} {edges edges' : List Edge}
    (h : Rearranged ids edges edges') (s : String) :
    edgesFrom ids s edges' = edgesFrom ids s edges := by
  induction h with
  | @reorder edges edges' h =>
    have hSplit : ∀ list : List Edge, edgesFrom ids s list =
        (list.filter fun e => e.source = s).filter fun e => Known ids e := by
      intro list
      rw [List.filter_filter, edgesFrom]
      apply List.filter_congr
      intro e _
      rw [Bool.decide_and, Bool.and_comm]
    rw [hSplit, hSplit, h s]
  | insert h before after => exact edgesFrom_insert h s before after
  | remove h before after => exact (edgesFrom_insert h s before after).symm
  | trans _ _ ih ih' => exact ih'.trans ih

theorem edgesFrom_perm {ids ids' : List String} (h : ids.Perm ids') (s : String)
    (edges : List Edge) : edgesFrom ids' s edges = edgesFrom ids s edges := by
  apply List.filter_congr
  intro e _
  rw [decide_eq_decide, Known, Known, h.mem_iff, h.mem_iff]

/-- Two graphs in which the nodes with the same id have the same children have the same tree. -/
theorem children_rename {m n : Nat} {ids : Vector String m} {ids' : Vector String n}
    (hIds : Injective ids.get) (hIds' : Injective ids'.get) {f : Fin m → Fin n}
    (hf : ∀ i, ids'.get (f i) = ids.get i) {edges edges' : List Edge}
    (hEdges : ∀ s, edgesFrom ids'.toList s edges' = edgesFrom ids.toList s edges) (i : Fin m) :
    (childTable (resolve ids' edges')).get (f i) =
      ((childTable (resolve ids edges)).get i).map f := by
  apply List.map_injective_iff.mpr hIds'
  rw [map_children_eq_edgesFrom hIds', hf, hEdges, ← map_children_eq_edgesFrom hIds,
    List.map_map]
  exact List.map_congr_left fun j _ => (hf j).symm

theorem exists_relocation {β : Type} {xs ys : List β} (h : xs.Perm ys) (hNodup : xs.Nodup) :
    ∃ f : Fin xs.length → Fin ys.length, Bijective f ∧ ∀ i, ys.get (f i) = xs.get i := by
  have hxs := List.nodup_iff_injective_get.mp hNodup
  have hys := List.nodup_iff_injective_get.mp (h.nodup_iff.mp hNodup)
  have hFind : ∀ i, ∃ j, ys.get j = xs.get i := fun i =>
    List.mem_iff_get.mp (h.mem_iff.mp (List.get_mem xs i))
  choose f hf using hFind
  refine ⟨f, ⟨?_, ?_⟩, hf⟩
  · intro i j hEq
    apply hxs
    rw [← hf i, ← hf j, hEq]
  · intro j
    obtain ⟨i, hi⟩ := List.mem_iff_get.mp (h.mem_iff.mpr (List.get_mem ys j))
    exact ⟨i, hys ((hf i).trans hi)⟩

theorem ofFn_perm {β : Type} {m n : Nat} {f : Fin m → Fin n} (hf : Bijective f) {u : Fin m → β}
    {v : Fin n → β} (h : ∀ i, v (f i) = u i) : (List.ofFn u).Perm (List.ofFn v) := by
  have hSize : m = n := Fin.equiv_iff_eq.mp ⟨Equiv.ofBijective f hf⟩
  subst hSize
  have hComp : v ∘ f = u := funext h
  rw [← hComp]
  exact Equiv.Perm.ofFn_comp_perm (Equiv.ofBijective f hf) v

section

variable {α : Type} [Coordinate α] {g : Geometry α} {nodes nodes' : List (Node α)}
  {tree : SpanningTree nodes.length} {f : Fin nodes.length → Fin nodes'.length}

theorem SpanningTree.moved_rename (hf : Injective f) (hNodes : ∀ i, nodes'.get (f i) = nodes.get i)
    (i : Fin nodes.length) : (tree.rename f).moved g nodes' (f i) = tree.moved g nodes i := by
  have hWidths := subtreeWidths_carries g hf tree.visits
  have hCentres := centres_carries g hf hWidths tree.visits
  have hPositions := positions_carries g hf hCentres tree.visits i
  rw [moved, moved, hNodes]
  exact congrArg (fun place => Option.elim place (nodes.get i) (nodes.get i).moveTo) hPositions

theorem SpanningTree.summary_rename (hf : Injective f)
    (hNodes : ∀ i, nodes'.get (f i) = nodes.get i) :
    (tree.rename f).summary g nodes' = tree.summary g nodes := by
  have hRoot : (nodeIds nodes').get (f tree.root) = (nodeIds nodes).get tree.root := by
    rw [get_nodeIds, get_nodeIds, hNodes]
  have hWidth := subtreeWidths_carries g hf tree.visits tree.root
  simp only [summary, widths, rename, hRoot, hWidth, List.length_map, List.foldl_map, Visit.rename]

end

/-- A layout of nodes with different ids has the same outcome after any change of the order of the
nodes and any rearrangement of the edges: the same failure, or the same summary and, for each id,
the same node in its place. The walk visits the same ids in the same order. -/
theorem arrange_rearranged {α : Type} [Coordinate α] (g : Geometry α) {nodes nodes' : List (Node α)}
    {edges edges' : List Edge} (hIds : (nodes.map Node.id).Nodup) (hNodes : nodes.Perm nodes')
    (hEdges : Rearranged (nodes.map Node.id) edges edges') :
    (∀ e, arrange g nodes edges = .error e → arrange g nodes' edges' = .error e) ∧
    ∀ summary placed, arrange g nodes edges = .ok (summary, placed) →
      ∃ placed', arrange g nodes' edges' = .ok (summary, placed') ∧ placed.Perm placed' ∧
        ∃ tree tree', spanningTree (nodeIds nodes) edges = .ok tree ∧
          spanningTree (nodeIds nodes') edges' = .ok tree' ∧
          tree'.visits.map (fun v => (nodeIds nodes').get v.node) =
            tree.visits.map fun v => (nodeIds nodes).get v.node := by
  have hInjective := nodeIds_injective hIds
  have hInjective' := nodeIds_injective ((hNodes.map Node.id).nodup_iff.mp hIds)
  obtain ⟨f, hf, hGet⟩ := exists_relocation hNodes (.of_map Node.id hIds)
  have hSame : ∀ i, (nodeIds nodes').get (f i) = (nodeIds nodes).get i := by
    intro i
    rw [get_nodeIds, get_nodeIds, hGet]
  have hFrom : ∀ s, edgesFrom (nodeIds nodes').toList s edges' =
      edgesFrom (nodeIds nodes).toList s edges := by
    intro s
    rw [toList_nodeIds, toList_nodeIds, edgesFrom_perm (hNodes.map Node.id),
      hEdges.edgesFrom_eq]
  have hChildren := children_rename hInjective hInjective' hSame hFrom
  have hTree := spanningTree_rename hf hChildren
  constructor
  · intro e he
    rw [arrange_eq_error_iff] at he ⊢
    rw [hTree, he]
    rfl
  · intro summary placed h
    obtain ⟨tree, hOld, rfl, rfl⟩ := arrange_eq_ok_iff.mp h
    rw [hOld] at hTree
    have hMoved : ∀ i, (tree.rename f).moved g nodes' (f i) = tree.moved g nodes i :=
      SpanningTree.moved_rename hf.injective hGet
    refine ⟨_, ?_, ofFn_perm hf hMoved, tree, tree.rename f, hOld, hTree, ?_⟩
    · rw [arrange_eq_of_tree hTree, SpanningTree.summary_rename hf.injective hGet]
    · rw [SpanningTree.rename, List.map_map]
      apply List.map_congr_left
      intro v _
      exact hSame v.node

def untangledEdges : List Edge :=
  [.between "b" "d", .between "d" "c", .between "d" "d", .between "b" "y", .between "a" "b",
    .between "a" "c", .between "d" "b", .between "a" "b"]

theorem rearranged_untangledEdges :
    Rearranged ["a", "b", "c", "d"] tangledEdges untangledEdges := by
  have hOut : Rearranged ["a", "b", "c", "d"] tangledEdges
      [.between "a" "b", .between "a" "c", .between "a" "b", .between "b" "d", .between "d" "c",
        .between "d" "d", .between "d" "b"] :=
    .remove (e := .between "z" "a") (by decide) [_, _, _, _, _, _, _] []
  have hOrder : Rearranged ["a", "b", "c", "d"]
      [.between "a" "b", .between "a" "c", .between "a" "b", .between "b" "d", .between "d" "c",
        .between "d" "d", .between "d" "b"]
      [.between "b" "d", .between "d" "c", .between "d" "d", .between "a" "b", .between "a" "c",
        .between "d" "b", .between "a" "b"] := by
    apply Rearranged.reorder
    intro s
    simp only [Edge.between, List.filter_cons]
    by_cases ha : "a" = s
    · subst ha
      decide
    · by_cases hb : "b" = s
      · subst hb
        decide
      · simp [ha, hb]
  exact (hOut.trans hOrder).trans (.insert (by decide) [_, _, _] [_, _, _, _])

theorem arrange_rearranged_tangled :
    ((plainNodes ["a", "b", "c", "d"]).map Node.id).Nodup ∧
      (plainNodes ["a", "b", "c", "d"]).Perm (plainNodes ["d", "b", "a", "c"]) ∧
      Rearranged ((plainNodes ["a", "b", "c", "d"]).map Node.id) tangledEdges untangledEdges ∧
      ∃ summary placed placed',
        arrange .standard (plainNodes ["a", "b", "c", "d"]) tangledEdges = .ok (summary, placed) ∧
          arrange .standard (plainNodes ["d", "b", "a", "c"]) untangledEdges =
            .ok (summary, placed') ∧
          placed.Perm placed' := by
  have hIds : ((plainNodes ["a", "b", "c", "d"]).map Node.id).Nodup := by decide
  have hNodes : (plainNodes ["a", "b", "c", "d"]).Perm (plainNodes ["d", "b", "a", "c"]) :=
    (by decide : ["a", "b", "c", "d"].Perm ["d", "b", "a", "c"]).map _
  obtain ⟨tree, hTree⟩ := exists_tangledTree
  have hArrange := arrange_eq_of_tree (g := .standard) hTree
  obtain ⟨-, hOk⟩ := arrange_rearranged .standard hIds hNodes rearranged_untangledEdges
  obtain ⟨placed', hArrange', hPerm, -⟩ := hOk _ _ hArrange
  exact ⟨hIds, hNodes, rearranged_untangledEdges, _, _, placed', hArrange, hArrange', hPerm⟩

end SyntaxDrawing.Layout
