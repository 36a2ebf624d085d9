import SyntaxDrawing.Proofs.Decimal.ExactOperation
import SyntaxDrawing.Proofs.Layout.Arrangement
import SyntaxDrawing.Proofs.Layout.Rational

/-!
# The numbers that a layout goes through

The traces list every number that the passes compute, in the order in which they do. Where all of
them are integers below `2 ^ 53` in exact arithmetic, no operation rounds: the numbers computed
stand for those of the exact trace, one by one.
-/

namespace SyntaxDrawing.Layout

open Coordinate Decimal

section

variable {α : Type} [Coordinate α] {n : Nat}

def rowTrace (gap : α) (widths : List α) : List α :=
  widths.scanl (· + ·) emptySum ++
    [ofCount (widths.length - 1), ofCount (widths.length - 1) * gap, rowWidth gap widths]

def widenTrace (g : Geometry α) (row : List α) : List α :=
  if row.isEmpty then []
  else rowTrace g.horizontalGap row ++ [larger g.nodeWidth (rowWidth g.horizontalGap row)]

/-- Of each member of a row its left end, its width and half of it, its centre, and how far the
next one is; at last the left end of what would come next. -/
def placeRowTrace (gap left : α) : List α → List α
  | [] => [left]
  | w :: rest =>
    [left, w, w / ofCount 2, left + w / ofCount 2, w + gap] ++
      placeRowTrace gap (left + (w + gap)) rest

theorem left_mem_placeRowTrace (gap left : α) (row : List α) :
    left ∈ placeRowTrace gap left row := by
  cases row <;> exact List.mem_cons_self

def placeTrace (g : Geometry α) (centre : α) (row : List α) : List α :=
  let width := rowWidth g.horizontalGap row
  rowTrace g.horizontalGap row ++ width / ofCount 2 ::
    placeRowTrace g.horizontalGap (centre - width / ofCount 2) row

def widthsTrace (g : Geometry α) : List (Visit n) → List α
  | [] => []
  | v :: after =>
    widthsTrace g after ++ widenTrace g (v.kept.map (subtreeWidths g after).get)

def centresTrace (g : Geometry α) (widths : Vector α n) (centres : Vector α n) :
    List (Visit n) → List α
  | [] => []
  | v :: after =>
    placeTrace g (centres.get v.node) (v.kept.map widths.get) ++
      centresTrace g widths (placeChildren g widths centres v) after

def levelTrace (g : Geometry α) (v : Visit n) : List α :=
  [ofCount v.depth, ofCount v.depth * g.levelHeight]

def SpanningTree.trace (g : Geometry α) (tree : SpanningTree n) : List α :=
  [g.nodeWidth, g.horizontalGap, g.originX, g.levelHeight] ++ widthsTrace g tree.visits ++
    centresTrace g (tree.widths g) (Vector.replicate n g.originX) tree.visits ++
    tree.visits.flatMap (levelTrace g)

end

def StandsFor (x : Float) (q : ℚ) : Prop :=
  exactValue? x = some q

def IsShort (q : ℚ) : Prop :=
  ∃ z : ℤ, q = z ∧ |z| < 2 ^ 53

theorem IsShort.representable {q : ℚ} (h : IsShort q) : Representable q := by
  obtain ⟨z, rfl, hz⟩ := h
  exact representable_intCast hz

structure Geometry.StandsFor (g : Geometry Float) (g' : Geometry ℚ) : Prop where
  nodeWidth : Layout.StandsFor g.nodeWidth g'.nodeWidth
  nodeHeight : Layout.StandsFor g.nodeHeight g'.nodeHeight
  horizontalGap : Layout.StandsFor g.horizontalGap g'.horizontalGap
  verticalGap : Layout.StandsFor g.verticalGap g'.verticalGap
  originX : Layout.StandsFor g.originX g'.originX

namespace StandsFor

variable {x y : Float} {a b : ℚ} {k : Nat}

theorem add (hx : StandsFor x a) (hy : StandsFor y b) (h : IsShort (a + b)) :
    StandsFor (x + y) (a + b) :=
  exactValue?_add hx hy h.representable

theorem sub (hx : StandsFor x a) (hy : StandsFor y b) (h : IsShort (a - b)) :
    StandsFor (x - y) (a - b) :=
  exactValue?_sub hx hy h.representable

theorem mul (hx : StandsFor x a) (hy : StandsFor y b) (h : IsShort (a * b)) :
    StandsFor (x * y) (a * b) :=
  exactValue?_mul hx hy h.representable

theorem ofCount (h : IsShort (Coordinate.ofCount k)) :
    StandsFor (Coordinate.ofCount k) (Coordinate.ofCount k) := by
  obtain ⟨z, hz, hShort⟩ := h
  rw [ofCount_rat] at hz
  have hz : (k : ℤ) = z := by exact_mod_cast hz
  rw [← hz, Nat.abs_cast] at hShort
  exact exactValue?_ofNat (by exact_mod_cast hShort)

theorem half (hx : StandsFor x a) (h : IsShort (a / Coordinate.ofCount 2)) :
    StandsFor (x / Coordinate.ofCount 2) (a / Coordinate.ofCount 2) :=
  exactValue?_div hx (exactValue?_ofNat (by decide)) two_ne_zero h.representable

theorem larger (hx : StandsFor x a) (hy : StandsFor y b) :
    StandsFor (larger x y) (larger a b) := by
  have hLarger : Coordinate.larger x y = if y.isNaN || y < x then x else y := rfl
  rw [hLarger, isNaN_of_exactValue hy, larger_rat]
  simp only [Bool.false_or, decide_eq_true_eq, lt_iff_of_exactValue hy hx]
  split
  · rename_i hLess
    rwa [max_eq_left hLess.le]
  · rename_i hLe
    rwa [max_eq_right (not_lt.mp hLe)]

end StandsFor

theorem scanl_standsFor {xs : List Float} {qs : List ℚ} (h : List.Forall₂ StandsFor xs qs)
    {x : Float} {q : ℚ} (hx : StandsFor x q) (hShort : ∀ r ∈ qs.scanl (· + ·) q, IsShort r) :
    List.Forall₂ StandsFor (xs.scanl (· + ·) x) (qs.scanl (· + ·) q) ∧
      StandsFor (xs.foldl (· + ·) x) (qs.foldl (· + ·) q) := by
  induction h generalizing x q with
  | nil => exact ⟨.cons hx .nil, hx⟩
  | @cons y r ys rs hy hRest ih =>
    rw [List.scanl_cons] at hShort
    have hNext : IsShort (q + r) := by
      apply hShort _ (List.mem_cons_of_mem q _)
      cases rs <;> simp
    obtain ⟨hScan, hFold⟩ := ih (hx.add hy hNext) fun s hs => hShort s (List.mem_cons_of_mem q hs)
    rw [List.scanl_cons, List.scanl_cons]
    exact ⟨.cons hx hScan, hFold⟩

theorem rowTrace_standsFor {gap : Float} {gap' : ℚ} (hGap : StandsFor gap gap') {xs : List Float}
    {qs : List ℚ} (h : List.Forall₂ StandsFor xs qs) (hShort : ∀ r ∈ rowTrace gap' qs, IsShort r) :
    List.Forall₂ StandsFor (rowTrace gap xs) (rowTrace gap' qs) ∧
      StandsFor (rowWidth gap xs) (rowWidth gap' qs) := by
  rw [rowTrace, List.forall_mem_append] at hShort
  obtain ⟨hSums, hRest⟩ := hShort
  simp only [List.forall_mem_cons] at hRest
  obtain ⟨hCount, hGaps, hWidth, -⟩ := hRest
  have hZero : StandsFor emptySum emptySum := exactValue?_negZero
  obtain ⟨hScan, hFold⟩ := scanl_standsFor h hZero hSums
  have hCount := StandsFor.ofCount hCount
  have hGaps := hCount.mul hGap hGaps
  have hWidth := hFold.add hGaps hWidth
  rw [rowTrace, rowTrace, rowWidth, h.length_eq]
  exact ⟨List.rel_append hScan (.cons hCount (.cons hGaps (.cons hWidth .nil))), hWidth⟩

section

variable {n : Nat} {g : Geometry Float} {g' : Geometry ℚ} {widths : Vector Float n}
  {widths' : Vector ℚ n}

def TableStandsFor (table : Vector Float n) (table' : Vector ℚ n) : Prop :=
  ∀ i, StandsFor (table.get i) (table'.get i)

namespace TableStandsFor

variable {table : Vector Float n} {table' : Vector ℚ n}

theorem replicate {x : Float} {q : ℚ} (h : StandsFor x q) :
    TableStandsFor (Vector.replicate n x) (Vector.replicate n q) := by
  intro i
  rwa [get_replicate, get_replicate]

theorem put (h : TableStandsFor table table') (i : Fin n) {x : Float} {q : ℚ}
    (hx : StandsFor x q) : TableStandsFor (put table i x) (put table' i q) := by
  intro j
  rw [get_put, get_put]
  split
  · exact hx
  · exact h j

theorem map_get (h : TableStandsFor table table') (row : List (Fin n)) :
    List.Forall₂ StandsFor (row.map table.get) (row.map table'.get) := by
  rw [List.forall₂_map_left_iff, List.forall₂_map_right_iff, List.forall₂_same]
  exact fun i _ => h i

end TableStandsFor

theorem widen_standsFor (hg : g.StandsFor g') (h : TableStandsFor widths widths') (v : Visit n)
    (hShort : ∀ q ∈ widenTrace g' (v.kept.map widths'.get), IsShort q) :
    List.Forall₂ StandsFor (widenTrace g (v.kept.map widths.get))
        (widenTrace g' (v.kept.map widths'.get)) ∧
      TableStandsFor (widen g v widths) (widen g' v widths') := by
  rw [widenTrace, List.isEmpty_map] at hShort
  rw [widenTrace, widenTrace, widen, widen, List.isEmpty_map, List.isEmpty_map]
  by_cases hLeaf : v.kept.isEmpty
  · rw [if_pos hLeaf, if_pos hLeaf, if_pos hLeaf, if_pos hLeaf]
    exact ⟨.nil, h⟩
  · rw [if_neg hLeaf, List.forall_mem_append] at hShort
    rw [if_neg hLeaf, if_neg hLeaf, if_neg hLeaf, if_neg hLeaf]
    obtain ⟨hTrace, hRow⟩ := rowTrace_standsFor hg.horizontalGap (h.map_get v.kept) hShort.1
    have hWidth := hg.nodeWidth.larger hRow
    exact ⟨List.rel_append hTrace (.cons hWidth .nil), h.put v.node hWidth⟩

theorem subtreeWidths_standsFor (hg : g.StandsFor g') (visits : List (Visit n))
    (hShort : ∀ q ∈ widthsTrace g' visits, IsShort q) :
    List.Forall₂ StandsFor (widthsTrace g visits) (widthsTrace g' visits) ∧
      TableStandsFor (subtreeWidths g visits) (subtreeWidths g' visits) := by
  -- The rows behind a visit are summed first, so its own are read off a table that is known.
  induction visits with
  | nil => exact ⟨.nil, .replicate hg.nodeWidth⟩
  | cons v after ih =>
    rw [widthsTrace, List.forall_mem_append] at hShort
    obtain ⟨hAfter, hTable⟩ := ih hShort.1
    obtain ⟨hTrace, hWidened⟩ := widen_standsFor hg hTable v hShort.2
    exact ⟨List.rel_append hAfter hTrace, hWidened⟩

theorem placeRow_standsFor (hg : g.StandsFor g') (h : TableStandsFor widths widths') {left : Float}
    {left' : ℚ} (hLeft : StandsFor left left') {centres : Vector Float n} {centres' : Vector ℚ n}
    (hCentres : TableStandsFor centres centres') (row : List (Fin n))
    (hShort : ∀ q ∈ placeRowTrace g'.horizontalGap left' (row.map widths'.get), IsShort q) :
    List.Forall₂ StandsFor (placeRowTrace g.horizontalGap left (row.map widths.get))
        (placeRowTrace g'.horizontalGap left' (row.map widths'.get)) ∧
      TableStandsFor (placeRow g widths left centres row)
        (placeRow g' widths' left' centres' row) := by
  induction row generalizing left left' centres centres' with
  | nil => exact ⟨.cons hLeft .nil, hCentres⟩
  | cons c rest ih =>
    rw [List.map_cons, placeRowTrace, List.forall_mem_append] at hShort
    obtain ⟨hHere, hRest⟩ := hShort
    simp only [List.forall_mem_cons] at hHere
    obtain ⟨-, -, hHalf, hCentre, hStep, -⟩ := hHere
    have hNext := hRest _ (left_mem_placeRowTrace _ _ _)
    have hHalf := (h c).half hHalf
    have hCentre := hLeft.add hHalf hCentre
    have hStep := (h c).add hg.horizontalGap hStep
    obtain ⟨hTrace, hTable⟩ := ih (hLeft.add hStep hNext) (hCentres.put c hCentre) hRest
    refine ⟨List.rel_append ?_ hTrace, hTable⟩
    exact .cons hLeft (.cons (h c) (.cons hHalf (.cons hCentre (.cons hStep .nil))))

theorem placeChildren_standsFor (hg : g.StandsFor g') (h : TableStandsFor widths widths')
    {centres : Vector Float n} {centres' : Vector ℚ n} (hCentres : TableStandsFor centres centres')
    (v : Visit n)
    (hShort : ∀ q ∈ placeTrace g' (centres'.get v.node) (v.kept.map widths'.get), IsShort q) :
    List.Forall₂ StandsFor (placeTrace g (centres.get v.node) (v.kept.map widths.get))
        (placeTrace g' (centres'.get v.node) (v.kept.map widths'.get)) ∧
      TableStandsFor (placeChildren g widths centres v) (placeChildren g' widths' centres' v) := by
  rw [placeTrace, List.forall_mem_append, List.forall_mem_cons] at hShort
  obtain ⟨hRow, hHalf, hPlaces⟩ := hShort
  obtain ⟨hTrace, hWidth⟩ := rowTrace_standsFor hg.horizontalGap (h.map_get v.kept) hRow
  have hHalf := hWidth.half hHalf
  have hLeft := (hCentres v.node).sub hHalf (hPlaces _ (left_mem_placeRowTrace _ _ _))
  obtain ⟨hPlaced, hTable⟩ := placeRow_standsFor hg h hLeft hCentres v.kept hPlaces
  exact ⟨List.rel_append hTrace (.cons hHalf hPlaced), hTable⟩

theorem centres_standsFor (hg : g.StandsFor g') (h : TableStandsFor widths widths')
    {centres : Vector Float n} {centres' : Vector ℚ n} (hCentres : TableStandsFor centres centres')
    (visits : List (Visit n))
    (hShort : ∀ q ∈ centresTrace g' widths' centres' visits, IsShort q) :
    List.Forall₂ StandsFor (centresTrace g widths centres visits)
        (centresTrace g' widths' centres' visits) ∧
      TableStandsFor (visits.foldl (placeChildren g widths) centres)
        (visits.foldl (placeChildren g' widths') centres') := by
  induction visits generalizing centres centres' with
  | nil => exact ⟨.nil, hCentres⟩
  | cons v after ih =>
    rw [centresTrace, List.forall_mem_append] at hShort
    obtain ⟨hTrace, hTable⟩ := placeChildren_standsFor hg h hCentres v hShort.1
    obtain ⟨hAfter, hFinal⟩ := ih hTable hShort.2
    exact ⟨List.rel_append hTrace hAfter, hFinal⟩

theorem levelTrace_standsFor (hHeight : StandsFor g.levelHeight g'.levelHeight) (v : Visit n)
    (hShort : ∀ q ∈ levelTrace g' v, IsShort q) :
    List.Forall₂ StandsFor (levelTrace g v) (levelTrace g' v) ∧
      StandsFor (ofCount v.depth * g.levelHeight) (ofCount v.depth * g'.levelHeight) := by
  simp only [levelTrace, List.forall_mem_cons] at hShort
  obtain ⟨hDepth, hLevel, -⟩ := hShort
  have hDepth := StandsFor.ofCount hDepth
  have hLevel := hDepth.mul hHeight hLevel
  exact ⟨.cons hDepth (.cons hLevel .nil), hLevel⟩

theorem flatMap_levelTrace_standsFor (hHeight : StandsFor g.levelHeight g'.levelHeight)
    (visits : List (Visit n)) (hShort : ∀ v ∈ visits, ∀ q ∈ levelTrace g' v, IsShort q) :
    List.Forall₂ StandsFor (visits.flatMap (levelTrace g)) (visits.flatMap (levelTrace g')) := by
  induction visits with
  | nil => exact .nil
  | cons v after ih =>
    obtain ⟨hHere, hAfter⟩ := List.forall_mem_cons.mp hShort
    rw [List.flatMap_cons, List.flatMap_cons]
    exact List.rel_append (levelTrace_standsFor hHeight v hHere).1 (ih hAfter)

/-- The numbers of a layout are those of exact arithmetic, the ones on the way included. -/
structure SpanningTree.Unrounded (tree : SpanningTree n) (g : Geometry Float)
    (g' : Geometry ℚ) : Prop where
  trace : List.Forall₂ StandsFor (tree.trace g) (tree.trace g')
  widths : TableStandsFor (tree.widths g) (tree.widths g')
  centres : TableStandsFor (tree.centres g) (tree.centres g')
  levels : ∀ v ∈ tree.visits,
    StandsFor (ofCount v.depth * g.levelHeight) (ofCount v.depth * g'.levelHeight)

theorem SpanningTree.unrounded (hg : g.StandsFor g') {tree : SpanningTree n}
    (hShort : ∀ q ∈ tree.trace g', IsShort q) : tree.Unrounded g g' := by
  rw [SpanningTree.trace, List.forall_mem_append, List.forall_mem_append,
    List.forall_mem_append] at hShort
  obtain ⟨⟨⟨hGeometry, hWidths⟩, hCentres⟩, hLevels⟩ := hShort
  have hHeight : StandsFor g.levelHeight g'.levelHeight :=
    hg.nodeHeight.add hg.verticalGap (hGeometry _ (by simp [Geometry.levelHeight]))
  have hLevels : ∀ v ∈ tree.visits, ∀ q ∈ levelTrace g' v, IsShort q := fun v hv q hq =>
    hLevels q (List.mem_flatMap.mpr ⟨v, hv, hq⟩)
  obtain ⟨hWidthTrace, hWidthTable⟩ := subtreeWidths_standsFor hg tree.visits hWidths
  obtain ⟨hCentreTrace, hCentreTable⟩ :=
    centres_standsFor hg hWidthTable (.replicate hg.originX) tree.visits hCentres
  have hFirst : List.Forall₂ StandsFor [g.nodeWidth, g.horizontalGap, g.originX, g.levelHeight]
      [g'.nodeWidth, g'.horizontalGap, g'.originX, g'.levelHeight] :=
    .cons hg.nodeWidth (.cons hg.horizontalGap (.cons hg.originX (.cons hHeight .nil)))
  refine ⟨?_, hWidthTable, hCentreTable, ?_⟩
  · exact List.rel_append (List.rel_append (List.rel_append hFirst hWidthTrace) hCentreTrace)
      (flatMap_levelTrace_standsFor hHeight tree.visits hLevels)
  · intro v hv
    exact (levelTrace_standsFor hHeight v (hLevels v hv)).2

end

section

variable {α : Type} [Coordinate α] {n : Nat} {g : Geometry α} {root : Fin n}
  {visits : List (Visit n)} {x : α}

theorem mem_widthsTrace_iff : x ∈ widthsTrace g visits ↔
    ∃ before v after, visits = before ++ v :: after ∧
      x ∈ widenTrace g (v.kept.map (subtreeWidths g after).get) := by
  induction visits with
  | nil => simp [widthsTrace]
  | cons v after ih =>
    rw [widthsTrace, List.mem_append, ih]
    constructor
    · rintro (⟨before, u, rest, rfl, hx⟩ | hx)
      · exact ⟨v :: before, u, rest, rfl, hx⟩
      · exact ⟨[], v, after, rfl, hx⟩
    · rintro ⟨before, u, rest, hSplit, hx⟩
      cases before with
      | nil =>
        cases hSplit
        exact .inr hx
      | cons w before =>
        cases hSplit
        exact .inl ⟨before, u, rest, rfl, hx⟩

theorem mem_centresTrace_iff {widths centres : Vector α n} :
    x ∈ centresTrace g widths centres visits ↔ ∃ before v after, visits = before ++ v :: after ∧
      x ∈ placeTrace g ((before.foldl (placeChildren g widths) centres).get v.node)
        (v.kept.map widths.get) := by
  induction visits generalizing centres with
  | nil => simp [centresTrace]
  | cons v after ih =>
    rw [centresTrace, List.mem_append, ih]
    constructor
    · rintro (hx | ⟨before, u, rest, rfl, hx⟩)
      · exact ⟨[], v, after, rfl, hx⟩
      · exact ⟨v :: before, u, rest, rfl, hx⟩
    · rintro ⟨before, u, rest, hSplit, hx⟩
      cases before with
      | nil =>
        cases hSplit
        exact .inl hx
      | cons w before =>
        cases hSplit
        exact .inr ⟨before, u, rest, rfl, hx⟩

def SpanningTree.traceOf (g : Geometry α) (tree : SpanningTree n) (v : Visit n) : List α :=
  widenTrace g (v.kept.map (tree.widths g).get) ++
    placeTrace g ((tree.centres g).get v.node) (v.kept.map (tree.widths g).get) ++ levelTrace g v

theorem SpanningTree.mem_trace_iff {tree : SpanningTree n}
    (h : LevelOrder tree.root tree.visits) : x ∈ tree.trace g ↔
      x ∈ [g.nodeWidth, g.horizontalGap, g.originX, g.levelHeight] ∨
        ∃ v ∈ tree.visits, x ∈ tree.traceOf g v := by
  have hWidths : x ∈ widthsTrace g tree.visits ↔
      ∃ v ∈ tree.visits, x ∈ widenTrace g (v.kept.map (tree.widths g).get) := by
    rw [mem_widthsTrace_iff]
    constructor
    · rintro ⟨before, v, after, hSplit, hx⟩
      rw [h.map_widths_after hSplit] at hx
      exact ⟨v, hSplit ▸ List.mem_append_right before List.mem_cons_self, hx⟩
    · rintro ⟨v, hv, hx⟩
      obtain ⟨before, after, hSplit⟩ := List.append_of_mem hv
      rw [widths, ← h.map_widths_after hSplit] at hx
      exact ⟨before, v, after, hSplit, hx⟩
  have hCentres : x ∈ centresTrace g (tree.widths g) (Vector.replicate n g.originX) tree.visits ↔
      ∃ v ∈ tree.visits, x ∈ placeTrace g ((tree.centres g).get v.node)
        (v.kept.map (tree.widths g).get) := by
    have hBefore : ∀ before v after, tree.visits = before ++ v :: after →
        (before.foldl (placeChildren g (tree.widths g)) (Vector.replicate n g.originX)).get v.node =
          (tree.centres g).get v.node := fun _ _ _ => h.get_centres_before (tree.widths g)
    rw [mem_centresTrace_iff]
    constructor
    · rintro ⟨before, v, after, hSplit, hx⟩
      rw [hBefore before v after hSplit] at hx
      exact ⟨v, hSplit ▸ List.mem_append_right before List.mem_cons_self, hx⟩
    · rintro ⟨v, hv, hx⟩
      obtain ⟨before, after, hSplit⟩ := List.append_of_mem hv
      rw [← hBefore before v after hSplit] at hx
      exact ⟨before, v, after, hSplit, hx⟩
  rw [trace, List.mem_append, List.mem_append, List.mem_append, hWidths, hCentres,
    List.mem_flatMap]
  simp only [traceOf, List.mem_append, or_assoc, and_or_left, exists_or]

theorem rowCentres_subset_placeRowTrace (gap left : α) (row : List α) :
    rowCentres gap left row ⊆ placeRowTrace gap left row := by
  induction row generalizing left with
  | nil => exact List.nil_subset _
  | cons w rest ih =>
    rw [rowCentres, placeRowTrace]
    refine List.cons_subset.mpr ⟨by simp, ?_⟩
    exact List.Subset.trans (ih _) (List.subset_append_right _ _)

/-- The numbers that a layout ends with are among those that it goes through. -/
theorem SpanningTree.results_mem_trace {tree : SpanningTree n}
    (h : LevelOrder tree.root tree.visits) {v : Visit n} (hv : v ∈ tree.visits) :
    (tree.widths g).get v.node ∈ tree.trace g ∧ (tree.centres g).get v.node ∈ tree.trace g ∧
      ofCount v.depth * g.levelHeight ∈ tree.trace g := by
  simp only [mem_trace_iff h]
  refine ⟨?_, ?_, ?_⟩
  · rw [widths, h.get_subtreeWidths hv]
    by_cases hLeaf : v.kept.isEmpty
    · rw [if_pos hLeaf]
      exact .inl List.mem_cons_self
    · rw [if_neg hLeaf]
      refine .inr ⟨v, hv, ?_⟩
      rw [traceOf, widenTrace, List.isEmpty_map, if_neg hLeaf]
      simp [widths]
  · rcases h.root_or_child hv with ⟨hNode, -⟩ | ⟨u, hu, hKept, -⟩
    · rw [hNode, centres, h.get_centres_root]
      exact .inl (by simp)
    · have hRow := List.mem_map_of_mem (f := (tree.centres g).get) hKept
      rw [centres, h.map_centres (tree.widths g) hu] at hRow
      have hPlaced := rowCentres_subset_placeRowTrace _ _ _ hRow
      refine .inr ⟨u, hu, ?_⟩
      rw [traceOf, placeTrace]
      exact List.mem_append_left _ (List.mem_append_right _
        (List.mem_append_right _ (List.mem_cons_of_mem _ hPlaced)))
  · refine .inr ⟨v, hv, List.mem_append_right _ ?_⟩
    simp [levelTrace]

end

end SyntaxDrawing.Layout
