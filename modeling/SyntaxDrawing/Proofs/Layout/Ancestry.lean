import SyntaxDrawing.Proofs.Layout.LevelOrder
import Mathlib.Logic.Relation

/-!
# Ancestors in the tree of a walk

The children that visits keep make a tree. Two nodes of it, neither of them above the other, hang
below different children of one node.
-/

namespace SyntaxDrawing.Layout

open Relation

theorem exists_fork {α : Type} {r : α → α → Prop} {a u v : α} (hu : ReflTransGen r a u)
    (hv : ReflTransGen r a v) (hne : u ≠ v) (huv : ¬ TransGen r u v) (hvu : ¬ TransGen r v u) :
    ∃ p c d, r p c ∧ r p d ∧ c ≠ d ∧ ReflTransGen r c u ∧ ReflTransGen r d v := by
  induction hu using ReflTransGen.head_induction_on with
  | refl =>
    rcases reflTransGen_iff_eq_or_transGen.mp hv with rfl | hAbove
    · exact absurd rfl hne
    · exact absurd hAbove huv
  | @head a c hac hcu ih =>
    rcases hv.cases_head with rfl | ⟨d, had, hdv⟩
    · exact absurd (TransGen.head' hac hcu) hvu
    · by_cases hcd : c = d
      · subst hcd
        exact ih hdv
      · exact ⟨a, c, d, hac, had, hcd, hcu, hdv⟩

variable {n : Nat} {root : Fin n} {visits : List (Visit n)}

def Keeps (visits : List (Visit n)) (i j : Fin n) : Prop :=
  ∃ v ∈ visits, v.node = i ∧ j ∈ v.kept

def Above (visits : List (Visit n)) : Fin n → Fin n → Prop :=
  TransGen (Keeps visits)

namespace LevelOrder

theorem keeps_visits (h : LevelOrder root visits) {v : Visit n} (hv : v ∈ visits) {j : Fin n}
    (hKeeps : Keeps visits v.node j) :
    j ∈ v.kept ∧ ∃ u ∈ visits, u.node = j ∧ u.depth = v.depth + 1 := by
  obtain ⟨w, hw, hNode, hj⟩ := hKeeps
  rw [h.visit_eq hw hv hNode] at hj
  exact ⟨hj, h.exists_child_visit hv hj⟩

theorem depth_lt_of_above (h : LevelOrder root visits) {u v : Visit n} (hu : u ∈ visits)
    (hv : v ∈ visits) (hAbove : Above visits u.node v.node) : u.depth < v.depth := by
  have hLt : ∀ j, Above visits u.node j → ∀ w ∈ visits, w.node = j → u.depth < w.depth := by
    intro j hj
    induction hj with
    | single hKeeps =>
      intro w hw hNode
      obtain ⟨_, x, hx, hxNode, hDepth⟩ := h.keeps_visits hu hKeeps
      rw [h.visit_eq hx hw (hxNode.trans hNode.symm)] at hDepth
      omega
    | tail _ hKeeps ih =>
      intro w hw hNode
      obtain ⟨y, hy, rfl, _⟩ := id hKeeps
      obtain ⟨_, x, hx, hxNode, hDepth⟩ := h.keeps_visits hy hKeeps
      have hlt := ih y hy rfl
      rw [h.visit_eq hx hw (hxNode.trans hNode.symm)] at hDepth
      omega
  exact hLt v.node hAbove v hv rfl

theorem root_reaches (h : LevelOrder root visits) :
    ∀ v ∈ visits, ReflTransGen (Keeps visits) root v.node := by
  refine h.induction (P := fun v => ReflTransGen (Keeps visits) root v.node) ?_ ?_
  · rintro v _ rfl _
    exact ReflTransGen.refl
  · intro v hv hReach u _ hKept _
    exact hReach.tail ⟨v, hv, rfl, hKept⟩

/-- Two visited nodes, neither above the other, are below different children of one visit. -/
theorem exists_branching (h : LevelOrder root visits) {u v : Visit n} (hu : u ∈ visits)
    (hv : v ∈ visits) (hne : u.node ≠ v.node) (huv : ¬ Above visits u.node v.node)
    (hvu : ¬ Above visits v.node u.node) :
    ∃ p ∈ visits, ∃ c ∈ p.kept, ∃ d ∈ p.kept, c ≠ d ∧
      ReflTransGen (Keeps visits) c u.node ∧ ReflTransGen (Keeps visits) d v.node := by
  obtain ⟨i, c, d, ⟨p, hp, rfl, hc⟩, hKeeps, hcd, hcu, hdv⟩ :=
    exists_fork (h.root_reaches u hu) (h.root_reaches v hv) hne huv hvu
  exact ⟨p, hp, c, hc, d, (h.keeps_visits hp hKeeps).1, hcd, hcu, hdv⟩

end LevelOrder

end SyntaxDrawing.Layout
