import SyntaxDrawing.Proofs.Layout.Passes
import Mathlib.Algebra.Order.BigOperators.Group.List
import Mathlib.Algebra.Order.Field.Rat
import Mathlib.Tactic.Linarith
import Mathlib.Tactic.Ring

/-!
# Layouts in exact arithmetic

Over the rationals a row of subtrees fills its width: its members stand in order, a gap apart, and
none reaches over the ends.
-/

namespace SyntaxDrawing

instance : Coordinate ℚ where
  ofCount k := k
  emptySum := 0
  larger := max

namespace Layout

open Coordinate

@[simp] theorem ofCount_rat (k : Nat) : (ofCount k : ℚ) = k := rfl

@[simp] theorem larger_rat (a b : ℚ) : larger a b = max a b := rfl

structure Geometry.Positive (g : Geometry ℚ) : Prop where
  nodeWidth : 0 < g.nodeWidth
  nodeHeight : 0 < g.nodeHeight
  horizontalGap : 0 < g.horizontalGap
  verticalGap : 0 < g.verticalGap

theorem Geometry.standard_positive : (Geometry.standard : Geometry ℚ).Positive := by
  constructor <;> simp [Geometry.standard]

theorem rowWidth_rat (gap : ℚ) (widths : List ℚ) :
    rowWidth gap widths = widths.sum + ((widths.length - 1 : Nat) : ℚ) * gap := by
  rw [List.sum_eq_foldl]
  rfl

theorem rowWidth_nil (gap : ℚ) : rowWidth gap [] = 0 := by
  rw [rowWidth_rat]
  simp

theorem rowWidth_singleton (gap w : ℚ) : rowWidth gap [w] = w := by
  rw [rowWidth_rat]
  simp

theorem rowWidth_cons_cons (gap w w' : ℚ) (rest : List ℚ) :
    rowWidth gap (w :: w' :: rest) = w + gap + rowWidth gap (w' :: rest) := by
  rw [rowWidth_rat, rowWidth_rat, List.sum_cons]
  simp only [List.length_cons, Nat.add_sub_cancel, Nat.cast_add, Nat.cast_one]
  ring

theorem rowWidth_nonneg {gap : ℚ} (hGap : 0 ≤ gap) {widths : List ℚ} (h : ∀ w ∈ widths, 0 ≤ w) :
    0 ≤ rowWidth gap widths := by
  rw [rowWidth_rat]
  exact add_nonneg (List.sum_nonneg h) (mul_nonneg (Nat.cast_nonneg _) hGap)

theorem rowCentres_row {n : Nat} {w x : Fin n → ℚ} {gap : ℚ} (hGap : 0 ≤ gap) {row : List (Fin n)}
    (hWidths : ∀ c ∈ row, 0 ≤ w c) {left : ℚ} (h : row.map x = rowCentres gap left (row.map w)) :
    (∀ c ∈ row, left ≤ x c - w c / 2 ∧ x c + w c / 2 ≤ left + rowWidth gap (row.map w)) ∧
      row.Pairwise fun c d => x c + w c / 2 + gap ≤ x d - w d / 2 := by
  induction row generalizing left with
  | nil => simp
  | cons c rest ih =>
    rw [List.map_cons, List.map_cons, rowCentres, List.cons.injEq] at h
    obtain ⟨hc, hRest⟩ := h
    have hWidth := hWidths c List.mem_cons_self
    have hWidths' : ∀ d ∈ rest, 0 ≤ w d := fun d hd => hWidths d (List.mem_cons_of_mem c hd)
    obtain ⟨hInside, hApart⟩ := ih hWidths' hRest
    have hc : x c = left + w c / 2 := hc
    have hNonneg : 0 ≤ rowWidth gap (rest.map w) := by
      apply rowWidth_nonneg hGap
      intro a ha
      obtain ⟨d, hd, rfl⟩ := List.mem_map.mp ha
      exact hWidths' d hd
    -- An empty rest adds no gap.
    have hRow : rest = [] ∧ rowWidth gap ((c :: rest).map w) = w c ∨
        rowWidth gap ((c :: rest).map w) = w c + gap + rowWidth gap (rest.map w) := by
      cases rest with
      | nil => exact Or.inl ⟨rfl, rowWidth_singleton gap (w c)⟩
      | cons d rest => exact Or.inr (rowWidth_cons_cons gap (w c) (w d) (rest.map w))
    refine ⟨?_, List.pairwise_cons.mpr ⟨?_, hApart⟩⟩
    · intro d hd
      rcases List.mem_cons.mp hd with rfl | hd
      · rcases hRow with ⟨_, hRow⟩ | hRow
        · constructor <;> linarith
        · constructor <;> linarith
      · obtain ⟨hLeft, hRight⟩ := hInside d hd
        rcases hRow with ⟨rfl, _⟩ | hRow
        · cases hd
        · have hStart : left + (w c + gap) ≤ x d - w d / 2 := hLeft
          have hEnd : x d + w d / 2 ≤ left + (w c + gap) + rowWidth gap (rest.map w) := hRight
          constructor <;> linarith
    · intro d hd
      have hStart : left + (w c + gap) ≤ x d - w d / 2 := (hInside d hd).1
      linarith

end Layout

end SyntaxDrawing
