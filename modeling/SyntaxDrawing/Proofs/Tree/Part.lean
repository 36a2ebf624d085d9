import SyntaxDrawing.Proofs.Tree.Precedence
import Mathlib.Data.List.Nodup

/-!
# Parts of a tree

A value inside a tree is a tree of its own. Its occurrences are those of the whole tree at and below
the place where it stands, in the same order. Whether they become nodes, and what they have around
them up to that place, is the same in both.
-/

namespace SyntaxDrawing

namespace Occurrence

variable {policy : Policy} {p q : Occurrence}

/-- An occurrence in the value of `p`, as one in the tree that `p` stands in. -/
def nest (p q : Occurrence) : Occurrence :=
  ⟨q.value, q.steps ++ p.steps⟩

theorem nest_top (p : Occurrence) : p.nest (top p.value) = p :=
  rfl

theorem inner_nest (p q : Occurrence) : (p.nest q).inner = q.inner.map p.nest := by
  rw [inner, inner, List.map_map]
  rfl

theorem within_nest (p q : Occurrence) : (p.nest q).within = q.within.map p.nest := by
  induction q using Occurrence.induction with
  | h q ih =>
    rw [within_eq, within_eq, inner_nest, List.map_cons, List.map_flatMap, List.flatMap_map,
      List.flatMap_congr ih]

theorem Holds.within_infix (h : p.Holds q) : q.within <:+: p.within := by
  induction h with
  | self => exact List.infix_refl _
  | @child q i t hq ht ih =>
    obtain ⟨before, after, hSplit⟩ := List.append_of_mem (mem_inner_iff.mpr ⟨i, t, ht, rfl⟩)
    refine List.IsInfix.trans ⟨q :: before.flatMap within, after.flatMap within, ?_⟩ ih
    rw [q.within_eq, hSplit, List.flatMap_append, List.flatMap_cons]
    simp

theorem emits_nest (h : policy.emits p) (hq : (top p.value).Holds q) :
    policy.emits (p.nest q) = policy.emits q := by
  cases hq with
  | self =>
    rw [nest_top, h, eq_comm, Policy.emits_iff]
    exact ⟨Or.inl rfl, (Policy.emits_iff.mp h).2⟩
  | child => simp [Policy.emits, nest, child]

theorem around_nest (p q : Occurrence) : (p.nest q).around = q.around.map p.nest ++ p.around := by
  obtain ⟨t, steps⟩ := q
  simp only [around, nest]
  induction steps with
  | nil => rfl
  | cons step steps ih =>
    rw [List.cons_append, aroundSteps, ih, aroundSteps, List.map_cons]
    rfl

theorem nearest?_nest (h : policy.emits p) (hq : (top p.value).Holds q) :
    (p.nest q).nearest? policy = ((q.nearest? policy).map p.nest).or (p.nearest? policy) := by
  have hAround : (q.around.map p.nest).find? policy.emits =
      (q.around.find? policy.emits).map p.nest := by
    rw [List.find?_map, ← List.head?_filter, ← List.head?_filter]
    congr 2
    apply List.filter_congr
    intro r hr
    exact emits_nest h (mem_around_holds hq rfl hr)
  rw [nearest?, around_nest, List.find?_append, hAround]
  rfl

theorem Holds.nest (h : (top p.value).Holds q) : p.Holds (p.nest q) := by
  rw [← mem_within_iff, ← nest_top p, within_nest, nest_top]
  exact List.mem_map_of_mem (mem_within_iff.mpr h)

end Occurrence

namespace Tree

open Occurrence

variable {policy : Policy} {t : Tree} {p : Occurrence}

theorem emits_top (h : policy.emits p) : policy.emits (top p.value) := by
  rw [← emits_nest h .self]
  exact h

theorem nodup_emitted (policy : Policy) (t : Tree) : (t.emitted policy).Nodup := by
  refine (t.pairwise_emitted policy).imp ?_
  rintro p _ hBefore rfl
  exact before_irrefl p hBefore

theorem nest_mem_emitted (hp : p ∈ t.emitted policy) {q : Occurrence}
    (hq : q ∈ p.value.emitted policy) : p.nest q ∈ t.emitted policy ∧ p.Holds (p.nest q) := by
  obtain ⟨hHolds, hEmits⟩ := mem_emitted_iff.mp hp
  obtain ⟨hInside, hInsideEmits⟩ := mem_emitted_iff.mp hq
  rw [mem_emitted_iff, emits_nest hEmits hInside]
  exact ⟨⟨hHolds.trans hInside.nest, hInsideEmits⟩, hInside.nest⟩

theorem exists_nest_iff (hp : p ∈ t.emitted policy) {r : Occurrence} (hr : r ∈ t.emitted policy) :
    (∃ q ∈ p.value.emitted policy, p.nest q = r) ↔ p.Holds r := by
  constructor
  · rintro ⟨q, hq, rfl⟩
    exact (nest_mem_emitted hp hq).2
  · intro hHolds
    rw [← mem_within_iff, ← nest_top p, within_nest, List.mem_map] at hHolds
    obtain ⟨q, hq, rfl⟩ := hHolds
    refine ⟨q, List.mem_filter.mpr ⟨hq, ?_⟩, rfl⟩
    rw [← emits_nest (mem_emitted_iff.mp hp).2 (mem_within_iff.mp hq)]
    exact (mem_emitted_iff.mp hr).2

/-- What becomes a node in the tree of an emitted value becomes one in the whole tree. All of it
stands together there, apart from the rest. -/
theorem emitted_split (hp : p ∈ t.emitted policy) :
    ∃ before after, t.emitted policy = before ++ (p.value.emitted policy).map p.nest ++ after ∧
      ∀ r ∈ before ++ after, ¬ p.Holds r := by
  obtain ⟨hHolds, hEmits⟩ := mem_emitted_iff.mp hp
  obtain ⟨before, after, hSplit⟩ := hHolds.within_infix
  have hPart : p.within.filter policy.emits = (p.value.emitted policy).map p.nest := by
    rw [← nest_top p, within_nest, List.filter_map, nest_top, emitted]
    congr 1
    apply List.filter_congr
    intro q hq
    exact emits_nest hEmits (mem_within_iff.mp hq)
  have hEmitted : t.emitted policy = before.filter policy.emits ++
      (p.value.emitted policy).map p.nest ++ after.filter policy.emits := by
    rw [emitted, ← hSplit, List.filter_append, List.filter_append, hPart]
  refine ⟨_, _, hEmitted, ?_⟩
  have hNodup := t.nodup_emitted policy
  intro r hr hPart
  have hMem : r ∈ t.emitted policy := by
    rw [hEmitted]
    rcases List.mem_append.mp hr with hBefore | hAfter
    · exact List.mem_append_left _ (List.mem_append_left _ hBefore)
    · exact List.mem_append_right _ hAfter
  have hNested := List.mem_map.mpr ((exists_nest_iff hp hMem).mpr hPart)
  rw [hEmitted, List.nodup_append', List.nodup_append'] at hNodup
  obtain ⟨⟨-, -, hLeft⟩, -, hRight⟩ := hNodup
  rcases List.mem_append.mp hr with hBefore | hAfter
  · exact hLeft hBefore hNested
  · exact hRight (List.mem_append_right _ hNested) hAfter

theorem emitted_of_emits (h : policy.emits p) :
    ∃ rest, p.value.emitted policy = top p.value :: rest := by
  rw [emitted, within_eq, List.filter_cons_of_pos (emits_top h)]
  exact ⟨_, rfl⟩

theorem tops_of_emits (h : policy.emits p) : p.value.tops policy = [top p.value] := by
  obtain ⟨rest, hEmitted⟩ := emitted_of_emits h
  have hOrder := p.value.pairwise_emitted policy
  rw [hEmitted, List.pairwise_cons] at hOrder
  rw [tops, hEmitted, List.filter_cons_of_pos (by rfl), List.cons.injEq, List.filter_eq_nil_iff]
  refine ⟨rfl, ?_⟩
  intro q hq hLevel
  have hMem : q ∈ p.value.emitted policy := hEmitted ▸ List.mem_cons_of_mem _ hq
  rcases (mem_emitted_iff.mp hMem).1.level_lt (emits_top h) with rfl | hLess
  · exact before_irrefl _ (hOrder.1 _ hq)
  · rw [decide_eq_true_eq] at hLevel
    omega

/-- What encloses a part is no part of it. -/
theorem not_holds_of_nearest? (hp : p ∈ t.emitted policy) {r : Occurrence}
    (hr : p.nearest? policy = some r) : ¬ p.Holds r := by
  intro hHolds
  have hLevel := p.level_eq policy
  rw [hr] at hLevel
  rcases hHolds.level_lt (mem_emitted_iff.mp hp).2 with rfl | hLess
  · exact absurd hLevel (Nat.ne_of_lt (Nat.lt_succ_self _))
  · simp only at hLevel
    omega

end Tree

end SyntaxDrawing
