import SyntaxDrawing.Proofs.Layout.Ancestry
import SyntaxDrawing.Proofs.Layout.KeptTree
import SyntaxDrawing.Proofs.Layout.Separation

/-!
# The columns of a layout

In exact arithmetic the leaves of a layout stand in columns, a node's width and a gap apart, from
left to right. A subtree is as wide as its leaves side by side, and its root stands in the middle
between the first of them and the last.
-/

namespace SyntaxDrawing.Layout

open Relation

variable {n : Nat}

namespace KeptTree

@[elab_as_elim]
theorem induction {P : KeptTree n → Prop}
    (node : ∀ i children, (∀ t ∈ children, P t) → P (.node i children)) (t : KeptTree n) : P t :=
  @KeptTree.rec n P (fun row => ∀ t ∈ row, P t) node (by simp)
    (fun _ _ ht hRest => List.forall_mem_cons.mpr ⟨ht, hRest⟩) t

def isLeaf : KeptTree n → Bool
  | node _ children => children.isEmpty

def leaves (t : KeptTree n) : List (Fin n) :=
  (t.subtrees.filter isLeaf).map root

@[simp] theorem leaves_node_nil (i : Fin n) : (node i []).leaves = [i] :=
  rfl

theorem leaves_node {children : List (KeptTree n)} (h : children ≠ []) (i : Fin n) :
    (node i children).leaves = children.flatMap leaves := by
  have hInner : ¬ (node i children).isLeaf := by
    rwa [isLeaf, List.isEmpty_iff]
  rw [leaves, subtrees_node, List.filter_cons_of_neg hInner, List.filter_flatMap, List.map_flatMap]
  rfl

theorem leaves_sublist_nodes (t : KeptTree n) : t.leaves.Sublist t.nodes :=
  List.filter_sublist.map root

theorem leaves_ne_nil (t : KeptTree n) : t.leaves ≠ [] := by
  induction t using KeptTree.induction with
  | node i children ih =>
    cases children with
    | nil => exact List.cons_ne_nil i []
    | cons c rest =>
      rw [leaves_node (List.cons_ne_nil c rest), List.flatMap_cons]
      exact List.append_ne_nil_of_left_ne_nil (ih c List.mem_cons_self) _

end KeptTree

section

variable {root : Fin n} {visits : List (Visit n)}

theorem LevelOrder.not_above_self (h : LevelOrder root visits) {v : Visit n} (hv : v ∈ visits) :
    ¬ Above visits v.node v.node := by
  intro hAbove
  exact lt_irrefl v.depth (h.depth_lt_of_above hv hv hAbove)

/-- Nodes of one level have nothing in common below them. -/
theorem LevelOrder.node_eq_of_reaches (h : LevelOrder root visits) {u v : Visit n}
    (hu : u ∈ visits) (hv : v ∈ visits) (hDepth : u.depth = v.depth) {i : Fin n}
    (hui : ReflTransGen (Keeps visits) u.node i) (hvi : ReflTransGen (Keeps visits) v.node i) :
    u.node = v.node := by
  have hNot : ∀ {w w'}, w ∈ visits → w' ∈ visits → w.depth = w'.depth →
      ¬ Above visits w.node w'.node := by
    intro w w' hw hw' hEq hAbove
    have hLess := h.depth_lt_of_above hw hw' hAbove
    omega
  induction hui with
  | refl =>
    rcases reflTransGen_iff_eq_or_transGen.mp hvi with hEq | hAbove
    · exact hEq
    · exact absurd hAbove (hNot hv hu hDepth.symm)
  | @tail j i huj hji ih =>
    rcases hvi.cases_tail with rfl | ⟨k, hvk, hki⟩
    · exact absurd (TransGen.tail' huj hji) (hNot hu hv hDepth)
    · obtain ⟨p, hp, rfl, hpi⟩ := hji
      obtain ⟨q, hq, rfl, hqi⟩ := hki
      rw [h.parent_unique hq hp hqi hpi] at hvk
      exact ih hvk

theorem Grows.reaches {t : KeptTree n} (hGrow : Grows visits t) :
    ∀ i ∈ t.nodes, ReflTransGen (Keeps visits) t.root i := by
  induction hGrow with
  | @node v children hv hKept hGrow ih =>
    intro i hi
    rw [KeptTree.nodes_node] at hi
    rcases List.mem_cons.mp hi with rfl | hBelow
    · exact .refl
    · obtain ⟨c, hc, hi⟩ := List.mem_flatMap.mp hBelow
      exact (ih c hc i hi).head ⟨v, hv, rfl, hKept ▸ List.mem_map_of_mem hc⟩

theorem LevelOrder.nodup_nodes (h : LevelOrder root visits) {t : KeptTree n}
    (hGrow : Grows visits t) : t.nodes.Nodup := by
  induction hGrow with
  | @node v children hv hKept hGrow ih =>
    have hChild : ∀ c ∈ children, c.root ∈ v.kept := fun c hc => hKept ▸ List.mem_map_of_mem hc
    rw [KeptTree.nodes_node, List.nodup_cons, List.nodup_flatMap]
    refine ⟨?_, ih, ?_⟩
    · intro hMem
      obtain ⟨c, hc, hi⟩ := List.mem_flatMap.mp hMem
      exact h.not_above_self hv
        (TransGen.head' ⟨v, hv, rfl, hChild c hc⟩ ((hGrow c hc).reaches _ hi))
    · have hRoots : children.Pairwise fun c d => c.root ≠ d.root := by
        rw [← List.pairwise_map, hKept]
        exact (List.nodup_flatMap.mp h.nodup_kept).1 v hv
      refine hRoots.imp_of_mem ?_
      intro c d hc hd hne i hic hid
      obtain ⟨u, hu, huNode, huDepth⟩ := h.exists_child_visit hv (hChild c hc)
      obtain ⟨w, hw, hwNode, hwDepth⟩ := h.exists_child_visit hv (hChild d hd)
      have hui := (hGrow c hc).reaches i hic
      have hwi := (hGrow d hd).reaches i hid
      rw [← huNode] at hui
      rw [← hwNode] at hwi
      apply hne
      rw [← huNode, ← hwNode]
      exact h.node_eq_of_reaches hu hw (huDepth.trans hwDepth.symm) hui hwi

end

namespace Geometry

/-- From one column to the next. -/
def pitch (g : Geometry ℚ) : ℚ :=
  g.nodeWidth + g.horizontalGap

def stretchOf (g : Geometry ℚ) (leaves : Nat) : ℚ :=
  leaves * g.pitch - g.horizontalGap

theorem stretchOf_one (g : Geometry ℚ) : g.stretchOf 1 = g.nodeWidth := by
  simp [stretchOf, pitch]

theorem stretchOf_add (g : Geometry ℚ) (a b : Nat) :
    g.stretchOf (a + b) = g.stretchOf a + g.horizontalGap + g.stretchOf b := by
  simp only [stretchOf, Nat.cast_add]
  ring

theorem nodeWidth_le_stretchOf {g : Geometry ℚ} (hPitch : 0 ≤ g.pitch) {leaves : Nat}
    (h : 0 < leaves) : g.nodeWidth ≤ g.stretchOf leaves := by
  have hOne : (1 : ℚ) ≤ leaves := by exact_mod_cast h
  have hMore := mul_le_mul_of_nonneg_right hOne hPitch
  simp only [stretchOf, pitch] at hMore ⊢
  linarith

end Geometry

section

variable {g : Geometry ℚ}

theorem rowWidth_stretches (g : Geometry ℚ) {counts : List Nat} (hne : counts ≠ []) :
    rowWidth g.horizontalGap (counts.map g.stretchOf) = g.stretchOf counts.sum := by
  induction counts with
  | nil => exact absurd rfl hne
  | cons k rest ih =>
    cases rest with
    | nil => exact rowWidth_singleton g.horizontalGap (g.stretchOf k)
    | cons l rest =>
      have hRow := ih (List.cons_ne_nil l rest)
      rw [List.map_cons] at hRow
      rw [List.sum_cons, g.stretchOf_add, ← hRow, List.map_cons, List.map_cons, rowWidth_cons_cons]

theorem rowWidth_of_leaves {row : List (KeptTree n)} (hne : row ≠ [])
    (hWidths : ∀ t ∈ row, t.subtreeWidth g = g.stretchOf t.leaves.length) :
    rowWidth g.horizontalGap (row.map (KeptTree.subtreeWidth g)) =
      g.stretchOf (row.flatMap KeptTree.leaves).length := by
  have hRow : row.map (KeptTree.subtreeWidth g) =
      (row.map fun t => t.leaves.length).map g.stretchOf := by
    rw [List.map_map]
    exact List.map_congr_left hWidths
  rw [hRow, rowWidth_stretches g (by simpa using hne), List.length_flatMap]

/-- A row is never narrower than a node. -/
theorem KeptTree.subtreeWidth_eq (hPitch : 0 ≤ g.pitch) (t : KeptTree n) :
    t.subtreeWidth g = g.stretchOf t.leaves.length := by
  induction t using KeptTree.induction with
  | node i children ih =>
    cases children with
    | nil => exact g.stretchOf_one.symm
    | cons c rest =>
      have hne : c :: rest ≠ [] := List.cons_ne_nil c rest
      have hRow := rowWidth_of_leaves hne ih
      rw [← leaves_node hne i, rowWidth_subtreeWidths] at hRow
      have hLeaves := List.length_pos_iff.mpr (node i (c :: rest)).leaves_ne_nil
      rw [subtreeWidth, if_neg (by simp), hRow, larger_rat]
      exact max_eq_right (Geometry.nodeWidth_le_stretchOf hPitch hLeaves)

theorem exists_columns_of_row (hPitch : 0 ≤ g.pitch) {x : Fin n → ℚ} {row : List (KeptTree n)}
    {left : ℚ} (h : (row.map KeptTree.root).map x =
      rowCentres g.horizontalGap left (row.map (KeptTree.subtreeWidth g))) :
    ∀ t ∈ row, ∃ before after,
      row.flatMap KeptTree.leaves = before ++ t.leaves ++ after ∧
        x t.root - g.stretchOf t.leaves.length / 2 = left + before.length * g.pitch := by
  induction row generalizing left with
  | nil => simp
  | cons s rest ih =>
    rw [List.map_cons, List.map_cons, List.map_cons, rowCentres, List.cons.injEq,
      s.subtreeWidth_eq hPitch] at h
    obtain ⟨hs, hRest⟩ := h
    intro t ht
    rcases List.mem_cons.mp ht with rfl | ht
    · refine ⟨[], rest.flatMap KeptTree.leaves, rfl, ?_⟩
      rw [hs]
      simp
    · obtain ⟨before, after, hLeaves, hx⟩ := ih hRest t ht
      refine ⟨s.leaves ++ before, after, ?_, ?_⟩
      · rw [List.flatMap_cons, hLeaves, List.append_assoc, List.append_assoc, List.append_assoc]
      · rw [hx, List.length_append, Nat.cast_add]
        simp only [Geometry.stretchOf, Geometry.pitch]
        ring

/-- The leaves of a subtree are next to each other, and the subtree begins where the first of them
does. -/
theorem LevelOrder.exists_columns {root : Fin n} {visits : List (Visit n)}
    (h : LevelOrder root visits) (hPitch : 0 ≤ g.pitch) {t : KeptTree n} (hGrow : Grows visits t) :
    let x := (centres g (subtreeWidths g visits) visits).get
    ∀ s ∈ t.subtrees, ∃ before after, t.leaves = before ++ s.leaves ++ after ∧
      x s.root - g.stretchOf s.leaves.length / 2 =
        x t.root - g.stretchOf t.leaves.length / 2 + before.length * g.pitch := by
  intro x
  induction hGrow with
  | @node v children hv hKept hGrow ih =>
    intro s hs
    rw [KeptTree.subtrees_node] at hs
    rcases List.mem_cons.mp hs with rfl | hBelow
    · exact ⟨[], [], by simp, by simp⟩
    · obtain ⟨c, hc, hs⟩ := List.mem_flatMap.mp hBelow
      have hne : children ≠ [] := List.ne_nil_of_mem hc
      have hWidths := h.map_subtreeWidths_grown (g := g) hKept hGrow
      have hRow := h.map_centres (g := g) (subtreeWidths g visits) hv
      rw [hWidths, ← hKept, rowWidth_of_leaves hne fun d _ => d.subtreeWidth_eq hPitch,
        ← KeptTree.leaves_node hne v.node] at hRow
      obtain ⟨before, after, hLeaves, hx⟩ := ih c hc s hs
      obtain ⟨before', after', hLeaves', hx'⟩ := exists_columns_of_row hPitch hRow c hc
      refine ⟨before' ++ before, after ++ after', ?_, ?_⟩
      · rw [KeptTree.leaves_node hne, hLeaves', hLeaves]
        simp only [List.append_assoc]
      · rw [hx, hx', List.length_append, Nat.cast_add, add_mul, add_assoc]
        rfl

theorem LevelOrder.centre_of_leaf {root : Fin n} {visits : List (Visit n)}
    (h : LevelOrder root visits) (hPitch : 0 ≤ g.pitch) {t : KeptTree n} (hGrow : Grows visits t)
    {j : Nat} {i : Fin n} (hj : t.leaves[j]? = some i) :
    let x := (centres g (subtreeWidths g visits) visits).get
    x i = x t.root - g.stretchOf t.leaves.length / 2 + g.nodeWidth / 2 + j * g.pitch := by
  intro x
  obtain ⟨s, hs, hNode⟩ := List.mem_map.mp (List.mem_of_getElem? hj)
  obtain ⟨hs, hLeaf⟩ := List.mem_filter.mp hs
  obtain ⟨before, after, hLeaves, hx⟩ := h.exists_columns hPitch hGrow s hs
  obtain ⟨k, children⟩ := s
  cases hNode
  rw [KeptTree.isLeaf, List.isEmpty_iff] at hLeaf
  subst hLeaf
  have hNodup := t.leaves_sublist_nodes.nodup (h.nodup_nodes hGrow)
  have hIndex : before.length = j := by
    refine (List.getElem?_inj ?_ hNodup).mp ?_
    · simp [hLeaves]
    · rw [hj, hLeaves]
      simp [KeptTree.root]
  rw [KeptTree.leaves_node_nil, List.length_singleton, g.stretchOf_one, hIndex] at hx
  have hx : x k - g.nodeWidth / 2 = x t.root - g.stretchOf t.leaves.length / 2 + j * g.pitch := hx
  rw [KeptTree.root]
  linarith

theorem SpanningTree.exists_centre_eq {tree : SpanningTree n}
    (h : LevelOrder tree.root tree.visits) (hPitch : 0 ≤ g.pitch) {whole : KeptTree n}
    (hGrow : Grows tree.visits whole) (hRoot : whole.root = tree.root) :
    ∀ s ∈ whole.subtrees, ∃ before after, whole.leaves = before ++ s.leaves ++ after ∧
      (tree.centres g).get s.root = g.originX +
        (2 * before.length + s.leaves.length - whole.leaves.length) * (g.pitch / 2) := by
  intro s hs
  obtain ⟨before, after, hLeaves, hx⟩ := h.exists_columns hPitch hGrow s hs
  have hOrigin : (tree.centres g).get tree.root = g.originX := h.get_centres_root _
  have hx : (tree.centres g).get s.root - g.stretchOf s.leaves.length / 2 =
      (tree.centres g).get whole.root - g.stretchOf whole.leaves.length / 2 +
        before.length * g.pitch := hx
  rw [hRoot, hOrigin] at hx
  refine ⟨before, after, hLeaves, ?_⟩
  simp only [Geometry.stretchOf] at hx
  linarith

structure InColumns (g : Geometry ℚ) (whole : KeptTree n) (width x : Fin n → ℚ) : Prop where
  width_eq : ∀ t ∈ whole.subtrees, width t.root =
    t.leaves.length * g.nodeWidth + (t.leaves.length - 1) * g.horizontalGap
  leaf_eq : ∀ (j : Nat) i, whole.leaves[j]? = some i → x i =
    g.originX - width whole.root / 2 + g.nodeWidth / 2 + j * (g.nodeWidth + g.horizontalGap)
  middle : ∀ t ∈ whole.subtrees, ∃ first last, t.leaves.head? = some first ∧
    t.leaves.getLast? = some last ∧ x t.root = (x first + x last) / 2

theorem SpanningTree.inColumns {tree : SpanningTree n} (h : LevelOrder tree.root tree.visits)
    (hPitch : 0 ≤ g.pitch) {whole : KeptTree n} (hGrow : Grows tree.visits whole)
    (hRoot : whole.root = tree.root) :
    InColumns g whole (tree.widths g).get (tree.centres g).get := by
  have hWidth : ∀ t ∈ whole.subtrees,
      (tree.widths g).get t.root = g.stretchOf t.leaves.length := by
    intro t ht
    rw [SpanningTree.widths, h.get_subtreeWidths_grown (hGrow.subtree t ht),
      t.subtreeWidth_eq hPitch]
  refine ⟨?_, ?_, ?_⟩
  · intro t ht
    rw [hWidth t ht, Geometry.stretchOf, Geometry.pitch]
    ring
  · intro j i hj
    rw [hWidth whole whole.mem_subtrees_self, ← h.get_centres_root (g := g) (tree.widths g),
      ← hRoot]
    exact h.centre_of_leaf hPitch hGrow hj
  · intro t ht
    have hPos := List.length_pos_iff.mpr t.leaves_ne_nil
    have hFirst : t.leaves[0]? = some t.leaves[0] := List.getElem?_eq_getElem hPos
    have hLast : t.leaves[t.leaves.length - 1]? = some t.leaves[t.leaves.length - 1] :=
      List.getElem?_eq_getElem (by omega)
    refine ⟨_, _, List.head?_eq_getElem?.trans hFirst, List.getLast?_eq_getElem?.trans hLast, ?_⟩
    have hxFirst := h.centre_of_leaf hPitch (hGrow.subtree t ht) hFirst
    have hxLast := h.centre_of_leaf hPitch (hGrow.subtree t ht) hLast
    rw [SpanningTree.centres, SpanningTree.widths, hxFirst, hxLast, Geometry.stretchOf,
      Geometry.pitch, Nat.cast_pred hPos]
    push_cast
    ring

theorem InColumns.congr {whole : KeptTree n} {width x x' : Fin n → ℚ}
    (h : InColumns g whole width x) {visits : List (Visit n)} (hGrow : Grows visits whole)
    (hx : ∀ v ∈ visits, x' v.node = x v.node) : InColumns g whole width x' := by
  have hNode : ∀ t ∈ whole.subtrees, ∀ i ∈ t.nodes, x' i = x i := by
    intro t ht i hi
    obtain ⟨v, hv, rfl⟩ := List.mem_map.mp ((hGrow.subtree t ht).mem_visits i hi)
    exact hx v hv
  have hLeaf : ∀ t ∈ whole.subtrees, ∀ i ∈ t.leaves, x' i = x i := fun t ht i hi =>
    hNode t ht i (t.leaves_sublist_nodes.subset hi)
  refine ⟨h.width_eq, ?_, ?_⟩
  · intro j i hj
    rw [hLeaf whole whole.mem_subtrees_self i (List.mem_of_getElem? hj)]
    exact h.leaf_eq j i hj
  · intro t ht
    obtain ⟨first, last, hFirst, hLast, hMiddle⟩ := h.middle t ht
    refine ⟨first, last, hFirst, hLast, ?_⟩
    rw [hNode t ht t.root (List.mem_map_of_mem t.mem_subtrees_self),
      hLeaf t ht first (List.mem_of_mem_head? hFirst),
      hLeaf t ht last (List.mem_of_mem_getLast? hLast), hMiddle]

/-- The closed form of a layout. The widths and places that the passes add up are those of leaves
in equally spaced columns, with every other node over the middle of its own. -/
theorem arrange_inColumns (hWidth : 0 < g.nodeWidth) (hGap : 0 < g.horizontalGap)
    {nodes : List (Node ℚ)} {edges : List Edge} {summary : Summary ℚ} {placed : List (Node ℚ)}
    (h : arrange g nodes edges = .ok (summary, placed)) :
    ∃ tree, spanningTree (nodeIds nodes) edges = .ok tree ∧
      ∃ whole, whole.root = tree.root ∧ Grows tree.visits whole ∧
        whole.nodes.Perm (tree.visits.map Visit.node) ∧
        ∃ place, placed.map Node.position = List.ofFn place ∧
          InColumns g whole (tree.widths g).get fun i => (place i).x := by
  obtain ⟨tree, hTree, rfl⟩ := exists_tree_of_arrange h
  have hOrder := SpanningTree.levelOrder hTree
  obtain ⟨whole, hRoot, hGrow, hNodes⟩ := hOrder.exists_whole
  refine ⟨tree, hTree, whole, hRoot, hGrow, ?_, fun i => (tree.moved g nodes i).position,
    List.map_ofFn, ?_⟩
  · exact (List.perm_ext_iff_of_nodup (hOrder.nodup_nodes hGrow) hOrder.nodup).mpr hNodes
  · refine (SpanningTree.inColumns hOrder (add_pos hWidth hGap).le hGrow hRoot).congr hGrow ?_
    intro u hu
    exact congrArg (fun m => m.position.x) (SpanningTree.moved_visit hOrder hu)

theorem arrange_inColumns_tangled : ∃ summary placed tree whole place,
    (0 < (Geometry.standard : Geometry ℚ).nodeWidth ∧
      0 < (Geometry.standard : Geometry ℚ).horizontalGap) ∧
    arrange .standard (plainNodes ["a", "b", "c", "d"]) tangledEdges = .ok (summary, placed) ∧
      spanningTree (nodeIds (plainNodes ["a", "b", "c", "d"])) tangledEdges = .ok tree ∧
      placed.map Node.position = List.ofFn place ∧
      InColumns .standard whole (tree.widths .standard).get fun i => (place i).x := by
  obtain ⟨tree, hTree⟩ := exists_tangledTree
  have hPositive := Geometry.standard_positive
  obtain ⟨tree', hTree', whole, -, -, -, place, hPlace, hColumns⟩ := arrange_inColumns
    hPositive.nodeWidth hPositive.horizontalGap (arrange_eq_of_tree (g := .standard) hTree)
  exact ⟨_, _, tree', whole, place, ⟨hPositive.nodeWidth, hPositive.horizontalGap⟩,
    arrange_eq_of_tree hTree, hTree', hPlace, hColumns⟩

end

end SyntaxDrawing.Layout
