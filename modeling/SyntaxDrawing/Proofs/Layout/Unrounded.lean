import SyntaxDrawing.Proofs.Layout.Columns
import SyntaxDrawing.Proofs.Layout.Trace

/-!
# Layouts that are not rounded

With the standard lengths a subtree of `k` leaves takes `170 * k - 50`, an even number, and begins
25 to the right of a multiple of 85. So all that is halved on the way gives an integer, none is
further from the origin than the leaves reach, and no operation rounds.
-/

namespace SyntaxDrawing.Layout

open Coordinate

variable {n : Nat}

def IntegerWithin (bound : ℤ) (q : ℚ) : Prop :=
  ∃ z : ℤ, q = z ∧ |z| ≤ bound

theorem IntegerWithin.isShort {bound : ℤ} {q : ℚ} (h : IntegerWithin bound q)
    (hBound : bound < 2 ^ 53) : IsShort q := by
  obtain ⟨z, hq, hz⟩ := h
  exact ⟨z, hq, hz.trans_lt hBound⟩

/-- A number that is written as an integer. -/
theorem integerWithin_of_eq {bound z : ℤ} {q : ℚ} (hq : q = z) (hLow : -bound ≤ z)
    (hHigh : z ≤ bound) : IntegerWithin bound q :=
  ⟨z, hq, abs_le.mpr ⟨hLow, hHigh⟩⟩

namespace Geometry

theorem standard_standsFor :
    (standard : Geometry Float).StandsFor (standard : Geometry ℚ) := by
  have hCount : ∀ k < 2 ^ 53, Layout.StandsFor (ofCount k) (ofCount k) := fun k hk =>
    Decimal.exactValue?_ofNat hk
  constructor <;> exact hCount _ (by decide)

theorem standard_originX : (standard : Geometry ℚ).originX = 0 := by
  simp [standard]

theorem standard_levelHeight : (standard : Geometry ℚ).levelHeight = 120 := by
  simp only [levelHeight, standard, ofCount_rat]
  norm_num

theorem standard_pitch : (standard : Geometry ℚ).pitch = 170 := by
  simp only [pitch, standard, ofCount_rat]
  norm_num

theorem stretchOf_standard (k : Nat) :
    (standard : Geometry ℚ).stretchOf k = ((170 * k - 50 : ℤ) : ℚ) := by
  rw [stretchOf, standard_pitch]
  simp only [standard, ofCount_rat]
  push_cast
  ring

end Geometry

section

variable {counts : List Nat} {leaves : Nat} {q : ℚ}

theorem exists_of_mem_scanl_stretches (hPos : ∀ k ∈ counts, 0 < k) {start : ℤ} (hStart : 0 ≤ start)
    (hq : q ∈ (counts.map Geometry.standard.stretchOf).scanl (· + ·) (start : ℚ)) :
    ∃ z : ℤ, q = z ∧ 0 ≤ z ∧ z ≤ start + 170 * counts.sum := by
  induction counts generalizing start with
  | nil =>
    rw [List.map_nil, List.scanl_nil, List.mem_singleton] at hq
    exact ⟨start, hq, hStart, by simp⟩
  | cons k rest ih =>
    obtain ⟨hk, hRest⟩ := List.forall_mem_cons.mp hPos
    rw [List.map_cons, List.scanl_cons, List.mem_cons, Geometry.stretchOf_standard,
      ← Int.cast_add] at hq
    rw [List.sum_cons]
    rcases hq with rfl | hq
    · exact ⟨start, rfl, hStart, by omega⟩
    · obtain ⟨z, hz, hLow, hHigh⟩ := ih hRest (by omega) hq
      exact ⟨z, hz, hLow, by omega⟩

theorem rowWidth_standard (hne : counts ≠ []) :
    rowWidth (Geometry.standard : Geometry ℚ).horizontalGap
      (counts.map Geometry.standard.stretchOf) = ((170 * counts.sum - 50 : ℤ) : ℚ) := by
  rw [rowWidth_stretches _ hne, Geometry.stretchOf_standard]

theorem sum_pos_of_pos (hPos : ∀ k ∈ counts, 0 < k) (hne : counts ≠ []) : 0 < counts.sum :=
  (List.length_pos_iff.mpr hne).trans_le (List.length_le_sum_of_one_le counts hPos)

theorem rowTrace_within (hPos : ∀ k ∈ counts, 0 < k) (hLeaves : counts.sum ≤ leaves) :
    ∀ q ∈ rowTrace (Geometry.standard : Geometry ℚ).horizontalGap
      (counts.map Geometry.standard.stretchOf), IntegerWithin (170 * leaves) q := by
  have hLength := List.length_le_sum_of_one_le counts hPos
  rw [rowTrace, List.length_map, List.forall_mem_append]
  refine ⟨?_, ?_⟩
  · intro q hq
    have hZero : (emptySum : ℚ) = ((0 : ℤ) : ℚ) := Int.cast_zero.symm
    rw [hZero] at hq
    obtain ⟨z, hz, hLow, hHigh⟩ := exists_of_mem_scanl_stretches hPos le_rfl hq
    exact integerWithin_of_eq hz (by omega) (by omega)
  · simp only [List.forall_mem_cons]
    refine ⟨?_, ?_, ?_, by simp⟩
    · have hCount : (ofCount (counts.length - 1) : ℚ) = ((counts.length - 1 : Nat) : ℤ) := by simp
      exact integerWithin_of_eq hCount (by omega) (by omega)
    · have hGaps : (ofCount (counts.length - 1) : ℚ) * Geometry.standard.horizontalGap =
          (((counts.length - 1 : Nat) : ℤ) * 50 : ℤ) := by simp [Geometry.standard]
      exact integerWithin_of_eq hGaps (by omega) (by omega)
    · by_cases hne : counts = []
      · rw [hne, List.map_nil, rowWidth_nil]
        exact integerWithin_of_eq Int.cast_zero.symm (by omega) (by omega)
      · have hSum := sum_pos_of_pos hPos hne
        exact integerWithin_of_eq (rowWidth_standard hne) (by omega) (by omega)

theorem widenTrace_within (hPos : ∀ k ∈ counts, 0 < k) (hLeaves : counts.sum ≤ leaves) :
    ∀ q ∈ widenTrace (.standard : Geometry ℚ) (counts.map Geometry.standard.stretchOf),
      IntegerWithin (170 * leaves) q := by
  rw [widenTrace, List.isEmpty_map]
  by_cases hne : counts = []
  · rw [hne]
    simp
  · have hSum := sum_pos_of_pos hPos hne
    rw [if_neg (by simpa using hne), List.forall_mem_append]
    refine ⟨rowTrace_within hPos hLeaves, ?_⟩
    have hWidth : (Geometry.standard : Geometry ℚ).nodeWidth = ((120 : ℤ) : ℚ) := by
      simp [Geometry.standard]
    rw [List.forall_mem_singleton, rowWidth_standard hne, larger_rat, hWidth, ← Int.cast_max]
    exact integerWithin_of_eq rfl (by omega) (by omega)

/-- The left ends of neighbouring subtrees, with `first` leaves before them. -/
theorem placeRowTrace_within (hPos : ∀ k ∈ counts, 0 < k) {first : Nat} {left : ℚ}
    (hLeft : left = ((85 * (2 * first - leaves) + 25 : ℤ) : ℚ)) (hSome : 0 < leaves)
    (hLeaves : first + counts.sum ≤ leaves) :
    ∀ q ∈ placeRowTrace (Geometry.standard : Geometry ℚ).horizontalGap left
      (counts.map Geometry.standard.stretchOf), IntegerWithin (170 * leaves) q := by
  induction counts generalizing first left with
  | nil =>
    rw [List.map_nil, placeRowTrace, List.forall_mem_singleton]
    exact integerWithin_of_eq hLeft (by omega) (by omega)
  | cons k rest ih =>
    obtain ⟨hk, hRest⟩ := List.forall_mem_cons.mp hPos
    rw [List.sum_cons] at hLeaves
    have hGap : (Geometry.standard : Geometry ℚ).horizontalGap = 50 := by simp [Geometry.standard]
    have hHalf : ((170 * k - 50 : ℤ) : ℚ) / ofCount 2 = ((85 * k - 25 : ℤ) : ℚ) := by
      rw [ofCount_rat]
      push_cast
      ring
    have hStep : ((170 * k - 50 : ℤ) : ℚ) + (Geometry.standard : Geometry ℚ).horizontalGap =
        ((170 * k : ℤ) : ℚ) := by
      rw [hGap]
      push_cast
      ring
    -- Neighbouring subtrees begin a multiple of 170 apart, so `left` keeps its form.
    rw [List.map_cons, placeRowTrace, Geometry.stretchOf_standard, hHalf, hStep, hLeft,
      ← Int.cast_add, ← Int.cast_add, List.forall_mem_append]
    have hNext : ((85 * (2 * first - leaves) + 25 + 170 * k : ℤ) : ℚ) =
        ((85 * (2 * (first + k : Nat) - leaves) + 25 : ℤ) : ℚ) := by
      congr 1
      push_cast
      ring
    refine ⟨?_, ih hRest hNext (by omega)⟩
    simp only [List.forall_mem_cons]
    refine ⟨?_, ?_, ?_, ?_, ?_, by simp⟩ <;>
      exact integerWithin_of_eq rfl (by omega) (by omega)

/-- A centre stands over its leaves, with `first` leaves before them. -/
theorem placeTrace_within (hPos : ∀ k ∈ counts, 0 < k) {first own : Nat} {x : ℚ}
    (hx : x = ((85 * (2 * first + own - leaves) : ℤ) : ℚ)) (hOwn : counts ≠ [] → counts.sum = own)
    (hLeaves : first + own ≤ leaves) :
    ∀ q ∈ placeTrace (.standard : Geometry ℚ) x (counts.map Geometry.standard.stretchOf),
      IntegerWithin (170 * leaves) q := by
  by_cases hne : counts = []
  · subst hne
    rw [placeTrace, List.map_nil, rowWidth_nil, zero_div, sub_zero, List.forall_mem_append,
      List.forall_mem_cons, placeRowTrace, List.forall_mem_singleton]
    refine ⟨rowTrace_within hPos (Nat.zero_le leaves), ?_, ?_⟩
    · exact integerWithin_of_eq Int.cast_zero.symm (by omega) (by omega)
    · exact integerWithin_of_eq hx (by omega) (by omega)
  · have hSum := sum_pos_of_pos hPos hne
    have hOwn := hOwn hne
    have hHalf : ((170 * counts.sum - 50 : ℤ) : ℚ) / ofCount 2 = ((85 * own - 25 : ℤ) : ℚ) := by
      rw [ofCount_rat, hOwn]
      push_cast
      ring
    rw [placeTrace, rowWidth_standard hne, hHalf, List.forall_mem_append, List.forall_mem_cons]
    have hLeft : x - ((85 * own - 25 : ℤ) : ℚ) = ((85 * (2 * first - leaves) + 25 : ℤ) : ℚ) := by
      rw [hx, ← Int.cast_sub]
      congr 1
      ring
    exact ⟨rowTrace_within hPos (by omega), integerWithin_of_eq rfl (by omega) (by omega),
      placeRowTrace_within hPos hLeft (by omega) (by omega)⟩

end

theorem LevelOrder.depth_le_length {root : Fin n} {visits : List (Visit n)}
    (h : LevelOrder root visits) : ∀ v ∈ visits, ∀ before after, visits = before ++ v :: after →
      v.depth ≤ before.length := by
  refine h.induction ?_ ?_
  · intro v _ _ hDepth before after _
    omega
  · intro v hv ih u hu hKept hDepth before after hSplit
    -- The parent is visited before its child.
    have hMem : v ∈ before := by
      rw [hSplit, List.mem_append] at hv
      exact hv.resolve_right fun hBehind => h.notMem_kept_after hSplit hBehind hKept
    obtain ⟨first, second, hBefore⟩ := List.append_of_mem hMem
    have hLess := ih first (second ++ u :: after) (by rw [hSplit, hBefore]; simp)
    rw [hBefore, List.length_append, List.length_cons]
    omega

theorem LevelOrder.depth_lt {root : Fin n} {visits : List (Visit n)} (h : LevelOrder root visits)
    {v : Visit n} (hv : v ∈ visits) : v.depth < n := by
  obtain ⟨before, after, hSplit⟩ := List.append_of_mem hv
  have hDepth := h.depth_le_length v hv before after hSplit
  have hNodes := h.nodup.length_le_card
  rw [Fintype.card_fin, List.length_map, hSplit, List.length_append, List.length_cons] at hNodes
  omega

/-- A visited node stands over `own` leaves, with `first` of all the leaves before them. Its
children have so many each. -/
structure OverLeaves (tree : SpanningTree n) (v : Visit n) (counts : List Nat)
    (first own leaves : Nat) : Prop where
  pos : ∀ k ∈ counts, 0 < k
  row : v.kept.map (tree.widths (.standard : Geometry ℚ)).get =
    counts.map Geometry.standard.stretchOf
  own_eq : counts ≠ [] → counts.sum = own
  inside : first + own ≤ leaves
  centre : (tree.centres (.standard : Geometry ℚ)).get v.node =
    ((85 * (2 * first + own - leaves) : ℤ) : ℚ)

theorem SpanningTree.exists_overLeaves {tree : SpanningTree n}
    (h : LevelOrder tree.root tree.visits) {v : Visit n} (hv : v ∈ tree.visits) :
    ∃ counts first own leaves, leaves ≤ n ∧ OverLeaves tree v counts first own leaves := by
  have hPositive := Geometry.standard_positive
  have hPitch : 0 ≤ (Geometry.standard : Geometry ℚ).pitch :=
    (add_pos hPositive.nodeWidth hPositive.horizontalGap).le
  obtain ⟨whole, hRoot, hGrow, hNodes⟩ := h.exists_whole
  have hLeaves := (whole.leaves_sublist_nodes.nodup (h.nodup_nodes hGrow)).length_le_card
  rw [Fintype.card_fin] at hLeaves
  obtain ⟨s, hs, hRootNode⟩ := List.mem_map.mp ((hNodes v.node).mpr (List.mem_map_of_mem hv))
  obtain ⟨before, after, hColumns, hx⟩ := SpanningTree.exists_centre_eq h hPitch hGrow hRoot s hs
  obtain @⟨u, children, hu, hKept, hBelow⟩ := hGrow.subtree s hs
  have hu : u = v := h.visit_eq hu hv hRootNode
  subst hu
  have hWidths := h.map_subtreeWidths_grown (g := (.standard : Geometry ℚ)) hKept hBelow
  refine ⟨children.map fun t => t.leaves.length, before.length,
    (KeptTree.node u.node children).leaves.length, whole.leaves.length, hLeaves, ?_, ?_, ?_, ?_, ?_⟩
  · intro k hk
    obtain ⟨t, -, rfl⟩ := List.mem_map.mp hk
    exact List.length_pos_iff.mpr t.leaves_ne_nil
  · rw [SpanningTree.widths, hWidths, List.map_map]
    exact List.map_congr_left fun t _ => t.subtreeWidth_eq hPitch
  · intro hne
    rw [KeptTree.leaves_node (by simpa using hne), List.length_flatMap]
  · rw [hColumns, List.length_append, List.length_append]
    omega
  · have hx : (tree.centres (.standard : Geometry ℚ)).get u.node = _ := hx
    rw [hx, Geometry.standard_originX, Geometry.standard_pitch]
    push_cast
    ring

theorem OverLeaves.sum_le {tree : SpanningTree n} {v : Visit n} {counts : List Nat}
    {first own leaves : Nat} (h : OverLeaves tree v counts first own leaves) :
    counts.sum ≤ leaves := by
  have hInside := h.inside
  by_cases hne : counts = []
  · rw [hne]
    exact Nat.zero_le leaves
  · rw [h.own_eq hne]
    omega

theorem levelTrace_within {v : Visit n} (hDepth : v.depth < n) :
    ∀ q ∈ levelTrace (.standard : Geometry ℚ) v, IntegerWithin (170 * n) q := by
  simp only [levelTrace, List.forall_mem_cons, Geometry.standard_levelHeight, ofCount_rat]
  refine ⟨integerWithin_of_eq (Int.cast_natCast _).symm (by omega) (by omega), ?_, by simp⟩
  have hLevel : (v.depth : ℚ) * 120 = ((v.depth * 120 : ℤ) : ℚ) := by push_cast; rfl
  exact integerWithin_of_eq hLevel (by omega) (by omega)

theorem SpanningTree.trace_within {tree : SpanningTree n} (h : LevelOrder tree.root tree.visits) :
    ∀ q ∈ tree.trace (.standard : Geometry ℚ), IntegerWithin (170 * n) q := by
  obtain ⟨r, hr, -, -⟩ := h.exists_root_visit
  have hSome := h.depth_lt hr
  intro q hq
  rcases (SpanningTree.mem_trace_iff h).mp hq with hGeometry | ⟨v, hv, hq⟩
  · have hConstants : q ∈ [((120 : ℤ) : ℚ), ((50 : ℤ) : ℚ), ((0 : ℤ) : ℚ), ((120 : ℤ) : ℚ)] := by
      rw [Geometry.standard_levelHeight, Geometry.standard_originX] at hGeometry
      exact_mod_cast hGeometry
    simp only [List.mem_cons, List.not_mem_nil, or_false] at hConstants
    rcases hConstants with rfl | rfl | rfl | rfl <;>
      exact integerWithin_of_eq rfl (by omega) (by omega)
  · obtain ⟨counts, first, own, leaves, hLeaves, hOver⟩ := SpanningTree.exists_overLeaves h hv
    have hMono : IntegerWithin (170 * leaves) q → IntegerWithin (170 * n) q := by
      rintro ⟨z, hz, hBound⟩
      exact ⟨z, hz, by omega⟩
    rw [SpanningTree.traceOf, hOver.row, List.mem_append, List.mem_append] at hq
    rcases hq with (hWidth | hPlace) | hLevel
    · exact hMono (widenTrace_within hOver.pos hOver.sum_le q hWidth)
    · exact hMono (placeTrace_within hOver.pos hOver.centre hOver.own_eq hOver.inside
        q hPlace)
    · exact levelTrace_within (h.depth_lt hv) q hLevel

/-- With the standard lengths every number that a layout computes on its way is an integer, at most
170 times the number of nodes away from zero, and every coordinate a multiple of 5. So below
`2 ^ 45` nodes no operation rounds, and the layout is the one of exact arithmetic. -/
theorem arrange_standard_unrounded {nodes : List (Node Float)} {edges : List Edge}
    {summary : Summary Float} {placed : List (Node Float)}
    (h : arrange .standard nodes edges = .ok (summary, placed)) :
    ∃ tree, spanningTree (nodeIds nodes) edges = .ok tree ∧
      (∀ q ∈ tree.trace (.standard : Geometry ℚ), IntegerWithin (170 * nodes.length) q) ∧
      (∀ v ∈ tree.visits, ∀ q ∈ [(tree.centres .standard).get v.node,
        ofCount v.depth * Geometry.standard.levelHeight],
          q ∈ tree.trace .standard ∧ ∃ a : ℤ, q = ((5 * a : ℤ) : ℚ)) ∧
      (nodes.length < 2 ^ 45 → tree.Unrounded .standard .standard ∧
        StandsFor summary.width ((tree.widths .standard).get tree.root) ∧
        ∃ place, placed.map Node.position = List.ofFn place ∧ ∀ v ∈ tree.visits,
          StandsFor (place v.node).x ((tree.centres .standard).get v.node) ∧
            StandsFor (place v.node).y (ofCount v.depth * Geometry.standard.levelHeight)) := by
  obtain ⟨tree, hTree, rfl, rfl⟩ := arrange_eq_ok_iff.mp h
  have hOrder := SpanningTree.levelOrder hTree
  have hWithin := SpanningTree.trace_within hOrder
  refine ⟨tree, hTree, hWithin, ?_, ?_⟩
  · intro v hv
    obtain ⟨counts, first, own, leaves, -, hOver⟩ := SpanningTree.exists_overLeaves hOrder hv
    obtain ⟨-, hCentre, hLevel⟩ :=
      SpanningTree.results_mem_trace (g := (.standard : Geometry ℚ)) hOrder hv
    simp only [List.forall_mem_cons]
    refine ⟨⟨hCentre, 17 * (2 * first + own - leaves), ?_⟩, ⟨hLevel, 24 * v.depth, ?_⟩, by simp⟩
    · rw [hOver.centre]
      congr 1
      ring
    · rw [Geometry.standard_levelHeight, ofCount_rat]
      push_cast
      ring
  · intro hLength
    have hUnrounded : tree.Unrounded .standard .standard :=
      SpanningTree.unrounded Geometry.standard_standsFor fun q hq =>
        (hWithin q hq).isShort (by omega)
    refine ⟨hUnrounded, hUnrounded.widths tree.root,
      fun i => (tree.moved .standard nodes i).position, List.map_ofFn, ?_⟩
    intro v hv
    simp only [SpanningTree.moved_visit hOrder hv]
    exact ⟨hUnrounded.centres v.node, hUnrounded.levels v hv⟩

theorem arrange_standard_unrounded_tangled :
    let nodes : List (Node Float) :=
      ["a", "b", "c", "d"].map fun id => .ofSource id id (.scalar .null)
    nodes.length < 2 ^ 45 ∧ ∃ summary placed, ∃ tree : SpanningTree nodes.length,
      arrange .standard nodes tangledEdges = .ok (summary, placed) ∧
        spanningTree (nodeIds nodes) tangledEdges = .ok tree ∧
        (∀ q ∈ tree.trace (.standard : Geometry ℚ), IntegerWithin (170 * nodes.length) q) ∧
        tree.Unrounded .standard .standard := by
  intro nodes
  have hFew : nodes.length < 2 ^ 45 := by decide
  obtain ⟨tree, hTree⟩ :=
    exists_tree_iff.mpr (by decide : (roots (resolve (nodeIds nodes) tangledEdges)).length = 1)
  have hArrange := arrange_eq_of_tree (g := .standard) hTree
  obtain ⟨tree', hTree', hWithin, -, hExact⟩ := arrange_standard_unrounded hArrange
  exact ⟨hFew, _, _, tree', hArrange, hTree', hWithin, (hExact hFew).1⟩

end SyntaxDrawing.Layout
