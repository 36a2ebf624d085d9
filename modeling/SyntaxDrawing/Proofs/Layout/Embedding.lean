import SyntaxDrawing.Proofs.Layout.KeptTree
import SyntaxDrawing.Proofs.Layout.Rational

/-!
# A tree inside another

The width of a subtree depends only on what is in it, and a row stands around its parent. So a tree
has the same widths inside another tree as alone, whatever the order of the visits there, and in
exact arithmetic all its centres are moved by one length.
-/

namespace SyntaxDrawing.Layout

variable {m n : Nat} {f : Fin m → Fin n} {root : Fin m} {root' : Fin n} {small : List (Visit m)}
  {large : List (Visit n)}

/-- Each visit of the small tree is one of the large tree, with its node and its row renamed. -/
def Embeds (f : Fin m → Fin n) (small : List (Visit m)) (large : List (Visit n)) : Prop :=
  ∀ v ∈ small, ∃ u ∈ large, u.node = f v.node ∧ u.kept = v.kept.map f

namespace Embeds

theorem get_subtreeWidths_root {α : Type} [Coordinate α] {g : Geometry α}
    (h : Embeds f small large) (hSmall : LevelOrder root small) (hLarge : LevelOrder root' large)
    {t : KeptTree m} (hGrow : Grows small t) :
    (subtreeWidths g large).get (f t.root) = (subtreeWidths g small).get t.root := by
  induction hGrow with
  | @node v children hv hKept hGrow ih =>
    obtain ⟨u, hu, hNode, hRow⟩ := h v hv
    have hWidths : u.kept.map (subtreeWidths g large).get =
        v.kept.map (subtreeWidths g small).get := by
      rw [hRow, ← hKept, List.map_map, List.map_map, List.map_map]
      exact List.map_congr_left ih
    have hEmpty : u.kept.isEmpty = v.kept.isEmpty := by rw [hRow, List.isEmpty_map]
    rw [KeptTree.root, ← hNode, hLarge.get_subtreeWidths hu, hSmall.get_subtreeWidths hv, hWidths,
      hEmpty]

theorem get_subtreeWidths {α : Type} [Coordinate α] {g : Geometry α}
    (h : Embeds f small large) (hSmall : LevelOrder root small) (hLarge : LevelOrder root' large)
    {v : Visit m} (hv : v ∈ small) :
    (subtreeWidths g large).get (f v.node) = (subtreeWidths g small).get v.node := by
  obtain ⟨t, hGrow, hRoot⟩ := hSmall.exists_grown v hv
  rw [← hRoot, h.get_subtreeWidths_root hSmall hLarge hGrow]

theorem map_subtreeWidths {α : Type} [Coordinate α] {g : Geometry α}
    (h : Embeds f small large) (hSmall : LevelOrder root small) (hLarge : LevelOrder root' large)
    {v : Visit m} (hv : v ∈ small) :
    (v.kept.map f).map (subtreeWidths g large).get = v.kept.map (subtreeWidths g small).get := by
  rw [List.map_map]
  apply List.map_congr_left
  intro c hc
  obtain ⟨u, hu, rfl, -⟩ := hSmall.exists_child_visit hv hc
  exact h.get_subtreeWidths hSmall hLarge hu

end Embeds

theorem rowCentres_add (gap left d : ℚ) (widths : List ℚ) :
    rowCentres gap (left + d) widths = (rowCentres gap left widths).map (· + d) := by
  induction widths generalizing left with
  | nil => rfl
  | cons w rest ih =>
    have hNext : left + d + (w + gap) = left + (w + gap) + d := by ring
    rw [rowCentres, rowCentres, List.map_cons, hNext, ih, add_right_comm]

/-- The length is how far the root of the inner tree stands from the origin. -/
theorem Embeds.get_centres {g : Geometry ℚ} (h : Embeds f small large)
    (hSmall : LevelOrder root small) (hLarge : LevelOrder root' large) :
    ∀ v ∈ small, (centres g (subtreeWidths g large) large).get (f v.node) =
      (centres g (subtreeWidths g small) small).get v.node +
        ((centres g (subtreeWidths g large) large).get (f root) - g.originX) := by
  let d := (centres g (subtreeWidths g large) large).get (f root) - g.originX
  refine hSmall.induction (P := fun v => (centres g (subtreeWidths g large) large).get (f v.node) =
    (centres g (subtreeWidths g small) small).get v.node + d) ?_ ?_
  · intro v _ hNode _
    rw [hNode, hSmall.get_centres_root, add_sub_cancel]
  · intro v hv hMoved c _ hKept _
    obtain ⟨u, hu, hNode, hRow⟩ := h v hv
    have hWidths := h.map_subtreeWidths (g := g) hSmall hLarge hv
    have hLargeRow := hLarge.map_centres (g := g) (subtreeWidths g large) hu
    rw [hRow, hWidths, hNode, hMoved, add_sub_right_comm, rowCentres_add,
      ← hSmall.map_centres _ hv, List.map_map, List.map_map] at hLargeRow
    exact List.map_inj_left.mp hLargeRow c.node hKept

end SyntaxDrawing.Layout
