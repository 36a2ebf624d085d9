import SyntaxDrawing.Layout.Basic
import SyntaxDrawing.Proofs.Layout.LevelOrder

/-!
# What the passes over a tree compute

Over visits in level order, the width of a node is final before its parent reads it, and the centre
of a node before its children are placed. So each visit satisfies one equation for its width and
one for the centres of its children, whatever the arithmetic.
-/

namespace SyntaxDrawing.Layout

open Coordinate

variable {α : Type} [Coordinate α] {n : Nat} {g : Geometry α}

theorem get_widen_ne (v : Visit n) (widths : Vector α n) {i : Fin n} (hi : v.node ≠ i) :
    (widen g v widths).get i = widths.get i := by
  rw [widen]
  split
  · rfl
  · rw [get_put, if_neg hi]

theorem get_widen_self (v : Visit n) (widths : Vector α n) :
    (widen g v widths).get v.node = if v.kept.isEmpty then widths.get v.node
      else larger g.nodeWidth (rowWidth g.horizontalGap (v.kept.map widths.get)) := by
  rw [widen]
  split
  · rfl
  · rw [get_put, if_pos rfl]

theorem get_foldr_widen (visits : List (Visit n)) (widths : Vector α n) {i : Fin n}
    (hi : i ∉ visits.map Visit.node) : (visits.foldr (widen g) widths).get i = widths.get i := by
  induction visits with
  | nil => rfl
  | cons v rest ih =>
    rw [List.map_cons, List.mem_cons, not_or] at hi
    rw [List.foldr_cons, get_widen_ne v _ (Ne.symm hi.1), ih hi.2]

theorem notMem_of_split {visits before after : List (Visit n)} {v : Visit n}
    (hNodup : (visits.map Visit.node).Nodup) (hSplit : visits = before ++ v :: after) :
    v.node ∉ before.map Visit.node ∧ v.node ∉ after.map Visit.node := by
  rw [hSplit, List.map_append, List.map_cons, List.nodup_append, List.nodup_cons] at hNodup
  refine ⟨?_, hNodup.2.1.1⟩
  intro hMem
  exact hNodup.2.2 v.node hMem v.node List.mem_cons_self rfl

theorem subtreeWidths_split (before : List (Visit n)) (v : Visit n) (after : List (Visit n)) :
    subtreeWidths g (before ++ v :: after) =
      before.foldr (widen g) (widen g v (subtreeWidths g after)) := by
  rw [subtreeWidths, List.foldr_append, List.foldr_cons]
  rfl

/-- The widths of children are final when their parent reads them. -/
theorem LevelOrder.map_widths_after {root : Fin n} {visits : List (Visit n)}
    (h : LevelOrder root visits) {before after : List (Visit n)} {v : Visit n}
    (hSplit : visits = before ++ v :: after) :
    v.kept.map (subtreeWidths g after).get = v.kept.map (subtreeWidths g visits).get := by
  apply List.map_congr_left
  intro c hc
  have hNot := h.child_notMem_before hSplit hc
  rw [List.map_append, List.mem_append, not_or] at hNot
  rw [hSplit, subtreeWidths_split, get_foldr_widen before _ hNot.1,
    get_widen_ne v _ (Ne.symm (by simpa using hNot.2))]

theorem LevelOrder.get_subtreeWidths {root : Fin n} {visits : List (Visit n)}
    (h : LevelOrder root visits) {v : Visit n} (hv : v ∈ visits) :
    (subtreeWidths g visits).get v.node = if v.kept.isEmpty then g.nodeWidth
      else larger g.nodeWidth
        (rowWidth g.horizontalGap (v.kept.map (subtreeWidths g visits).get)) := by
  obtain ⟨before, after, hSplit⟩ := List.append_of_mem hv
  obtain ⟨hBefore, hAfter⟩ := notMem_of_split h.nodup hSplit
  have hOwn : (subtreeWidths g after).get v.node = g.nodeWidth := by
    rw [subtreeWidths, get_foldr_widen after _ hAfter]
    simp
  have hWidth : (subtreeWidths g visits).get v.node =
      (widen g v (subtreeWidths g after)).get v.node := by
    rw [hSplit, subtreeWidths_split, get_foldr_widen before _ hBefore]
  rw [hWidth, get_widen_self, hOwn, h.map_widths_after hSplit]

def rowCentres (gap left : α) : List α → List α
  | [] => []
  | w :: rest => (left + w / ofCount 2) :: rowCentres gap (left + (w + gap)) rest

theorem get_placeRow_of_notMem (widths : Vector α n) (left : α) (centres : Vector α n)
    (row : List (Fin n)) {i : Fin n} (hi : i ∉ row) :
    (placeRow g widths left centres row).get i = centres.get i := by
  induction row generalizing left centres with
  | nil => rfl
  | cons c rest ih =>
    rw [List.mem_cons, not_or] at hi
    rw [placeRow, ih _ _ hi.2, get_put, if_neg (Ne.symm hi.1)]

theorem map_placeRow (widths : Vector α n) (left : α) (centres : Vector α n) {row : List (Fin n)}
    (hRow : row.Nodup) :
    row.map (placeRow g widths left centres row).get =
      rowCentres g.horizontalGap left (row.map widths.get) := by
  induction row generalizing left centres with
  | nil => rfl
  | cons c rest ih =>
    obtain ⟨hc, hRest⟩ := List.nodup_cons.mp hRow
    rw [List.map_cons, List.map_cons, rowCentres, placeRow, ih _ _ hRest,
      get_placeRow_of_notMem _ _ _ _ hc, get_put, if_pos rfl]

theorem get_foldl_placeChildren (widths : Vector α n) (visits : List (Visit n))
    (centres : Vector α n) {i : Fin n} (hi : ∀ v ∈ visits, i ∉ v.kept) :
    (visits.foldl (placeChildren g widths) centres).get i = centres.get i := by
  induction visits generalizing centres with
  | nil => rfl
  | cons v rest ih =>
    rw [List.foldl_cons, ih _ fun u hu => hi u (List.mem_cons_of_mem v hu), placeChildren,
      get_placeRow_of_notMem _ _ _ _ (hi v List.mem_cons_self)]

theorem LevelOrder.get_centres_root {root : Fin n} {visits : List (Visit n)}
    (h : LevelOrder root visits) (widths : Vector α n) :
    (centres g widths visits).get root = g.originX := by
  rw [centres, get_foldl_placeChildren widths visits _ fun v hv => h.root_notMem_kept hv]
  simp

/-- The centre of a node is final when its children are placed. -/
theorem LevelOrder.get_centres_before {root : Fin n} {visits : List (Visit n)}
    (h : LevelOrder root visits) (widths : Vector α n) {before after : List (Visit n)}
    {v : Visit n} (hSplit : visits = before ++ v :: after) :
    (centres g widths before).get v.node = (centres g widths visits).get v.node := by
  rw [hSplit, centres, centres, List.foldl_append]
  exact (get_foldl_placeChildren widths (v :: after) _
    fun u hu => h.notMem_kept_after hSplit hu).symm

theorem LevelOrder.map_centres {root : Fin n} {visits : List (Visit n)}
    (h : LevelOrder root visits) (widths : Vector α n) {v : Visit n} (hv : v ∈ visits) :
    v.kept.map (centres g widths visits).get =
      rowCentres g.horizontalGap
        ((centres g widths visits).get v.node -
          rowWidth g.horizontalGap (v.kept.map widths.get) / ofCount 2)
        (v.kept.map widths.get) := by
  obtain ⟨before, after, hSplit⟩ := List.append_of_mem hv
  have hCentres : centres g widths visits = after.foldl (placeChildren g widths)
      (placeChildren g widths (centres g widths before) v) := by
    rw [centres, hSplit, List.foldl_append, List.foldl_cons]
    rfl
  have hKept : v.kept.Nodup := (List.nodup_flatMap.mp h.nodup_kept).1 v hv
  rw [← h.get_centres_before widths hSplit, ← map_placeRow widths _ (centres g widths before) hKept]
  apply List.map_congr_left
  intro c hc
  have hOthers : ∀ u ∈ after, c ∉ u.kept := by
    intro u hu hcu
    have hMem : u ∈ visits := hSplit ▸ List.mem_append_right before (List.mem_cons_of_mem v hu)
    rw [h.parent_unique hMem hv hcu hc] at hu
    exact (notMem_of_split h.nodup hSplit).2 (List.mem_map_of_mem hu)
  rw [hCentres, get_foldl_placeChildren widths after _ hOthers]
  rfl

theorem get_foldl_positions (centres : Vector α n) (visits : List (Visit n))
    (placed : Vector (Option (Position α)) n) {i : Fin n} (hi : i ∉ visits.map Visit.node) :
    (visits.foldl (fun placed v =>
      put placed v.node (some ⟨centres.get v.node, ofCount v.depth * g.levelHeight⟩))
      placed).get i = placed.get i := by
  induction visits generalizing placed with
  | nil => rfl
  | cons v rest ih =>
    rw [List.map_cons, List.mem_cons, not_or] at hi
    rw [List.foldl_cons, ih _ hi.2, get_put, if_neg (Ne.symm hi.1)]

theorem get_positions_of_notMem (centres : Vector α n) {visits : List (Visit n)} {i : Fin n}
    (hi : i ∉ visits.map Visit.node) : (positions g centres visits).get i = none := by
  rw [positions, get_foldl_positions centres visits _ hi]
  simp

theorem get_positions (centres : Vector α n) {visits : List (Visit n)}
    (hNodup : (visits.map Visit.node).Nodup) {v : Visit n} (hv : v ∈ visits) :
    (positions g centres visits).get v.node =
      some ⟨centres.get v.node, ofCount v.depth * g.levelHeight⟩ := by
  obtain ⟨before, after, hSplit⟩ := List.append_of_mem hv
  obtain ⟨_, hAfter⟩ := notMem_of_split hNodup hSplit
  rw [positions, hSplit, List.foldl_append, List.foldl_cons,
    get_foldl_positions centres after _ hAfter, get_put, if_pos rfl]

end SyntaxDrawing.Layout
