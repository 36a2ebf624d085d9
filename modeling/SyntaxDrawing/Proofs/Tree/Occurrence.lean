import SyntaxDrawing.Graph.Build
import Mathlib.Data.List.Basic

/-!
# Occurrences of values in a tree

The same value may stand in a tree more than once, so a value is taken together with the steps that
lead to it. `within` lists all occurrences in document order, and `around` the enclosing ones.
-/

namespace SyntaxDrawing

/-- A value within a tree and the steps that lead to it, the last one first. A step is an enclosing
value and the number of its child that was taken. -/
structure Occurrence where
  value : Tree
  steps : List (Tree × Nat)

namespace Tree

theorem sizeOf_lt_of_mem_children {t c : Tree} (h : c ∈ t.children) : sizeOf c < sizeOf t := by
  cases t with
  | scalar s => cases h
  | sequence items =>
    have hItems : sizeOf c < sizeOf items := List.sizeOf_lt_of_mem h
    rw [sequence.sizeOf_spec]
    omega
  | node kind span fields =>
    obtain ⟨⟨key, value⟩, hField, rfl⟩ := List.mem_map.mp h
    have hFields := List.sizeOf_lt_of_mem hField
    simp only [Prod.mk.sizeOf_spec] at hFields ⊢
    rw [node.sizeOf_spec]
    omega
  | mapping fields =>
    obtain ⟨⟨key, value⟩, hField, rfl⟩ := List.mem_map.mp h
    have hFields := List.sizeOf_lt_of_mem hField
    simp only [Prod.mk.sizeOf_spec] at hFields ⊢
    rw [mapping.sizeOf_spec]
    omega

end Tree

namespace Occurrence

def top (t : Tree) : Occurrence :=
  ⟨t, []⟩

def inner (p : Occurrence) : List Occurrence :=
  p.value.children.zipIdx.map fun (c, i) => ⟨c, (p.value, i) :: p.steps⟩

theorem exists_step_of_mem_inner {p c : Occurrence} (h : c ∈ p.inner) :
    c.value ∈ p.value.children ∧ ∃ i, c.steps = (p.value, i) :: p.steps := by
  obtain ⟨⟨t, i⟩, hMem, rfl⟩ := List.mem_map.mp h
  exact ⟨List.fst_mem_of_mem_zipIdx hMem, i, rfl⟩

theorem sizeOf_lt_of_mem_inner {p c : Occurrence} (h : c ∈ p.inner) :
    sizeOf c.value < sizeOf p.value :=
  Tree.sizeOf_lt_of_mem_children (exists_step_of_mem_inner h).1

theorem map_value_inner (p : Occurrence) : p.inner.map value = p.value.children := by
  rw [inner, List.map_map]
  exact List.zipIdx_map_fst 0 _

def within (p : Occurrence) : List Occurrence :=
  p :: p.inner.attach.flatMap fun c => within c.1
termination_by sizeOf p.value
decreasing_by exact sizeOf_lt_of_mem_inner c.2

theorem within_eq (p : Occurrence) : p.within = p :: p.inner.flatMap within := by
  rw [within]
  simp

theorem induction {P : Occurrence → Prop} (h : ∀ p, (∀ c ∈ p.inner, P c) → P p) (p : Occurrence) :
    P p :=
  h p fun c _ => induction h c
termination_by sizeOf p.value
decreasing_by exact sizeOf_lt_of_mem_inner ‹_›

theorem steps_ne_nil_of_mem_within {p q : Occurrence} (hp : p.steps ≠ []) (hq : q ∈ p.within) :
    q.steps ≠ [] := by
  induction p using Occurrence.induction with
  | h p ih =>
    rw [within_eq] at hq
    rcases List.mem_cons.mp hq with rfl | hInner
    · exact hp
    · obtain ⟨c, hc, hWithin⟩ := List.mem_flatMap.mp hInner
      obtain ⟨_, i, hSteps⟩ := exists_step_of_mem_inner hc
      exact ih c hc (by simp [hSteps]) hWithin

def aroundSteps : List (Tree × Nat) → List Occurrence
  | [] => []
  | (t, _) :: steps => ⟨t, steps⟩ :: aroundSteps steps

def around (p : Occurrence) : List Occurrence :=
  aroundSteps p.steps

theorem around_inner {p c : Occurrence} (h : c ∈ p.inner) : c.around = p :: p.around := by
  obtain ⟨_, i, hSteps⟩ := exists_step_of_mem_inner h
  rw [around, hSteps]
  rfl

end Occurrence

/-- Whether an occurrence becomes a node: a scalar only as a whole document, a mapping only if the
policy does not skip it. -/
def Policy.emits (policy : Policy) (p : Occurrence) : Bool :=
  (p.value.isComposite || p.steps.isEmpty) && !(p.value.isMapping && policy = .skip)

theorem Policy.emits_iff {policy : Policy} {p : Occurrence} :
    policy.emits p ↔ (p.steps.isEmpty ∨ p.value.isComposite) ∧
      ¬ (p.value.isMapping ∧ policy = .skip) := by
  rw [emits, Bool.and_eq_true, Bool.or_eq_true, Bool.not_eq_true', Bool.and_eq_false_iff,
    decide_eq_false_iff_not, or_comm, not_and_or, Bool.not_eq_true]

namespace Occurrence

variable (policy : Policy)

/-- The nearest enclosing occurrence that becomes a node. -/
def nearest? (p : Occurrence) : Option Occurrence :=
  p.around.find? policy.emits

def level (p : Occurrence) : Nat :=
  p.around.countP policy.emits

theorem nearest?_inner {p c : Occurrence} (h : c ∈ p.inner) :
    c.nearest? policy = if policy.emits p then some p else p.nearest? policy := by
  rw [nearest?, around_inner h, List.find?_cons]
  cases policy.emits p <;> rfl

/-- Without skipping, the whole document is a node around everything else. -/
theorem nearest?_emit_isSome {p : Occurrence} (hp : p.steps ≠ []) : (p.nearest? .emit).isSome := by
  obtain ⟨t, steps⟩ := p
  simp only [nearest?, around]
  induction steps with
  | nil => exact absurd rfl hp
  | cons step steps ih =>
    rw [aroundSteps, List.find?_cons]
    cases hEmits : Policy.emits .emit ⟨step.1, steps⟩ with
    | true => rfl
    | false =>
      apply ih
      rintro rfl
      simp [Policy.emits] at hEmits

theorem level_eq (p : Occurrence) :
    p.level policy = match p.nearest? policy with
      | none => 0
      | some q => q.level policy + 1 := by
  obtain ⟨t, steps⟩ := p
  simp only [level, nearest?, around]
  induction steps with
  | nil => rfl
  | cons step steps ih =>
    rw [aroundSteps, List.countP_cons, List.find?_cons]
    cases policy.emits ⟨step.1, steps⟩ with
    | true => rfl
    | false => simpa using ih

theorem level_eq_zero_iff {p : Occurrence} : p.level policy = 0 ↔ p.nearest? policy = none := by
  rw [level_eq]
  cases p.nearest? policy <;> simp

end Occurrence

namespace Tree

def emitted (policy : Policy) (t : Tree) : List Occurrence :=
  (Occurrence.top t).within.filter policy.emits

/-- Those of them that no other one encloses. -/
def tops (policy : Policy) (t : Tree) : List Occurrence :=
  (t.emitted policy).filter fun p => p.level policy = 0

/-- Without skipping, the whole document comes first and encloses all else. -/
theorem emitted_emit (t : Tree) :
    ∃ rest, t.emitted .emit = .top t :: rest ∧ ∀ p ∈ rest, (p.nearest? .emit).isSome := by
  rw [emitted, Occurrence.within_eq,
    List.filter_cons_of_pos (by simp [Policy.emits, Occurrence.top])]
  refine ⟨_, rfl, ?_⟩
  intro p hp
  obtain ⟨c, hc, hWithin⟩ := List.mem_flatMap.mp (List.mem_of_mem_filter hp)
  obtain ⟨_, _, hSteps⟩ := Occurrence.exists_step_of_mem_inner hc
  apply Occurrence.nearest?_emit_isSome
  exact Occurrence.steps_ne_nil_of_mem_within (by simp [hSteps]) hWithin

theorem tops_emit (t : Tree) : t.tops .emit = [.top t] := by
  obtain ⟨rest, hEmitted, hRest⟩ := t.emitted_emit
  rw [tops, hEmitted, List.filter_cons_of_pos (by rfl), List.cons.injEq]
  refine ⟨rfl, ?_⟩
  rw [List.filter_eq_nil_iff]
  intro p hp hLevel
  have hNone := (Occurrence.level_eq_zero_iff .emit).mp (of_decide_eq_true hLevel)
  have hSome := hRest p hp
  rw [hNone] at hSome
  cases hSome

end Tree

end SyntaxDrawing
