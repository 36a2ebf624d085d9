import SyntaxDrawing.Proofs.Json.ReadInduction
import SyntaxDrawing.Proofs.Json.WellFormed
import SyntaxDrawing.Proofs.Tree.Part
import Mathlib.Order.Bounds.Defs

/-!
# Nesting and levels

Whatever the tree of a value holds is the tree of a value inside, and nests the less the deeper it
stands. Only composite values become nodes below the top, so levels stay below the nesting of the
whole. If nothing is skipped and no span is lifted out, some node stands as deep as that allows.
-/

namespace SyntaxDrawing

open Json (Value)

namespace Json

theorem nestingOfItems_le_iff {items : List Value} {n : Nat} :
    nestingOfItems items ≤ n ↔ ∀ item ∈ items, item.nesting ≤ n := by
  induction items with
  | nil => simp [nestingOfItems]
  | cons first rest ih => rw [nestingOfItems, Nat.max_le, ih, List.forall_mem_cons]

theorem nestingOfFields_le_iff {fields : List (String × Value)} {n : Nat} :
    nestingOfFields fields ≤ n ↔ ∀ m ∈ fields, m.2.nesting ≤ n := by
  induction fields with
  | nil => simp [nestingOfFields]
  | cons first rest ih => rw [nestingOfFields, Nat.max_le, ih, List.forall_mem_cons]

theorem nesting_le_of_mem_items {item : Value} {items : List Value} (h : item ∈ items) :
    item.nesting ≤ nestingOfItems items :=
  nestingOfItems_le_iff.mp (Nat.le_refl _) item h

theorem nesting_le_of_mem_fields {m : String × Value} {fields : List (String × Value)}
    (h : m ∈ fields) : m.2.nesting ≤ nestingOfFields fields :=
  nestingOfFields_le_iff.mp (Nat.le_refl _) m h

theorem exists_nesting_eq_items {items : List Value} (h : 0 < nestingOfItems items) :
    ∃ item ∈ items, item.nesting = nestingOfItems items := by
  induction items with
  | nil => cases h
  | cons first rest ih =>
    rw [nestingOfItems] at h ⊢
    rcases Nat.le_total (nestingOfItems rest) first.nesting with hLe | hLe
    · exact ⟨first, List.mem_cons_self, (Nat.max_eq_left hLe).symm⟩
    · rw [Nat.max_eq_right hLe] at h ⊢
      obtain ⟨item, hItem, hNesting⟩ := ih h
      exact ⟨item, List.mem_cons_of_mem first hItem, hNesting⟩

theorem exists_nesting_eq_fields {fields : List (String × Value)} (h : 0 < nestingOfFields fields) :
    ∃ m ∈ fields, m.2.nesting = nestingOfFields fields := by
  induction fields with
  | nil => cases h
  | cons first rest ih =>
    rw [nestingOfFields] at h ⊢
    rcases Nat.le_total (nestingOfFields rest) first.2.nesting with hLe | hLe
    · exact ⟨first, List.mem_cons_self, (Nat.max_eq_left hLe).symm⟩
    · rw [Nat.max_eq_right hLe] at h ⊢
      obtain ⟨m, hMem, hNesting⟩ := ih h
      exact ⟨m, List.mem_cons_of_mem first hMem, hNesting⟩

end Json

open Json

namespace Tree

variable {v : Value}

theorem ofJson_array (items : List Value) :
    ofJson (.array items) = sequence (items.map ofJson) := by
  rw [ofJson, ofItems_eq_map]

theorem ofJson_object (fields : List (String × Value)) :
    ofJson (.object fields) =
      match kindOf? fields with
      | none => mapping (fields.map fun m => (m.1, ofJson m.2))
      | some kind => node kind (spanOf? fields)
          ((fields.filter fun m => isField (spanOf? fields).isSome m.1).map
            fun m => (m.1, ofJson m.2)) := by
  rw [ofJson, ofFields_eq_map]
  cases kindOf? fields with
  | none => rfl
  | some kind =>
    simp only [List.filter_map]
    rfl

theorem isComposite_ofJson : (ofJson v).isComposite = true ↔ 0 < v.nesting := by
  cases v with
  | array items => simp [ofJson_array, isComposite, Value.nesting]
  | object fields =>
    rw [ofJson_object]
    cases kindOf? fields <;> simp [isComposite, Value.nesting]
  | _ => simp [ofJson, isComposite, Value.nesting]

theorem exists_value_of_mem_children {c : Tree} (h : c ∈ (ofJson v).children) :
    ∃ w, c = ofJson w ∧ w.nesting < v.nesting := by
  cases v with
  | array items =>
    rw [ofJson_array] at h
    obtain ⟨w, hw, rfl⟩ := List.mem_map.mp h
    exact ⟨w, rfl, Nat.lt_succ_of_le (nesting_le_of_mem_items hw)⟩
  | object fields =>
    have hMember : ∃ m ∈ fields, c = ofJson m.2 := by
      rw [ofJson_object] at h
      cases hKind : kindOf? fields with
      | none =>
        rw [hKind] at h
        simpa [children, eq_comm] using h
      | some kind =>
        rw [hKind] at h
        simp only [children, List.map_map, List.mem_map, List.mem_filter] at h
        obtain ⟨m, ⟨hm, -⟩, rfl⟩ := h
        exact ⟨m, hm, rfl⟩
    obtain ⟨m, hm, rfl⟩ := hMember
    exact ⟨m.2, rfl, Nat.lt_succ_of_le (nesting_le_of_mem_fields hm)⟩
  | _ => cases h

end Tree

open Occurrence SyntaxDrawing.Tree

variable {v : Value} {p : Occurrence}

theorem Occurrence.Holds.exists_value (h : (top (ofJson v)).Holds p) :
    ∃ w, p.value = ofJson w ∧ p.steps.length + w.nesting ≤ v.nesting := by
  induction h with
  | self => exact ⟨v, rfl, Nat.le_of_eq (Nat.zero_add _)⟩
  | @child q i c _ hc ih =>
    obtain ⟨w, hValue, hDepth⟩ := ih
    obtain ⟨w', rfl, hLess⟩ := exists_value_of_mem_children (hValue ▸ List.mem_of_getElem? hc)
    refine ⟨w', rfl, ?_⟩
    show q.steps.length + 1 + w'.nesting ≤ v.nesting
    omega

theorem length_around (p : Occurrence) : p.around.length = p.steps.length := by
  obtain ⟨t, steps⟩ := p
  simp only [around]
  induction steps with
  | nil => rfl
  | cons step steps ih => rw [aroundSteps, List.length_cons, ih, List.length_cons]

theorem level_le_length_steps (policy : Policy) (p : Occurrence) :
    p.level policy ≤ p.steps.length := by
  rw [← length_around]
  exact List.countP_le_length

/-- No node is on a level below the nesting of the document. -/
theorem level_le_of_emitted {policy : Policy} (hp : p ∈ (ofJson v).emitted policy) :
    p.level policy ≤ max v.nesting 1 - 1 := by
  obtain ⟨hHolds, hEmits⟩ := mem_emitted_iff.mp hp
  have hSteps := level_le_length_steps policy p
  rcases (Policy.emits_iff.mp hEmits).1 with hTop | hComposite
  · rw [List.isEmpty_iff.mp hTop] at hSteps
    exact Nat.le_trans hSteps (Nat.zero_le _)
  · obtain ⟨w, hValue, hDepth⟩ := hHolds.exists_value
    rw [hValue, isComposite_ofJson] at hComposite
    omega

theorem level_emit (h : (top (ofJson v)).Holds p) : p.level .emit = p.steps.length := by
  induction h with
  | self => rfl
  | @child q i c _ hc ih =>
    have hComposite : q.value.isComposite = true := by
      cases hValue : q.value with
      | scalar s =>
        rw [hValue] at hc
        cases hc
      | _ => rfl
    have hEmits : Policy.emits .emit q = true := by simp [Policy.emits, hComposite]
    rw [level_child .emit hc, hEmits, ih]
    rfl

def HasNoSpan (v : Value) : Prop :=
  ∀ p, (top (ofJson v)).Holds p → p.value.span? = none

theorem holds_of_child {w : Value} {i : Nat} (hc : (ofJson v).children[i]? = some (ofJson w))
    (h : (top (ofJson w)).Holds p) :
    (top (ofJson v)).Holds (((top (ofJson v)).child i (ofJson w)).nest p) :=
  (Holds.self.child hc).trans (Holds.nest h)

def HasDeepest (v : Value) : Prop :=
  HasNoSpan v → 0 < v.nesting →
    ∃ p, (top (ofJson v)).Holds p ∧ p.value.isComposite ∧ p.steps.length + 1 = v.nesting

theorem hasDeepest_of_child {w : Value} (hc : ofJson w ∈ (ofJson v).children)
    (hw : HasDeepest w) (hPos : 0 < w.nesting) (hNesting : w.nesting + 1 = v.nesting)
    (hSpan : HasNoSpan v) :
    ∃ p, (top (ofJson v)).Holds p ∧ p.value.isComposite ∧ p.steps.length + 1 = v.nesting := by
  obtain ⟨i, hi⟩ := List.getElem?_of_mem hc
  have hInner : HasNoSpan w := by
    intro q hq
    have hNone := hSpan _ (holds_of_child hi hq)
    exact hNone
  obtain ⟨p, hp, hComposite, hDepth⟩ := hw hInner hPos
  refine ⟨_, holds_of_child hi hp, hComposite, ?_⟩
  simp only [Occurrence.nest, Occurrence.child, top, List.length_append, List.length_singleton]
  omega

/-- A member that nests is no kind, so it stays a field. -/
theorem mem_children_object {fields : List (String × Value)} (hKeys : (fields.map (·.1)).Nodup)
    (hSpan : HasNoSpan (.object fields)) {m : String × Value} (hm : m ∈ fields)
    (hPos : 0 < m.2.nesting) : ofJson m.2 ∈ (ofJson (.object fields)).children := by
  have hTop := hSpan _ .self
  rw [top, ofJson_object] at hTop
  rw [ofJson_object]
  cases hKind : kindOf? fields with
  | none =>
    rw [children, List.map_map]
    exact List.mem_map_of_mem (f := fun m => ofJson m.2) hm
  | some kind =>
    rw [hKind] at hTop
    have hNone : spanOf? fields = none := hTop
    have hKey : m.1 ≠ kindKey := by
      intro hSame
      -- The kind is a string, and keys differ, so this would be the member that nests.
      have hLookup : lookup? m.1 fields = some m.2 := (lookup?_eq_some_iff hKeys).mpr hm
      rw [hSame] at hLookup
      rw [kindOf?, hLookup] at hKind
      cases hValue : m.2 with
      | string s =>
        rw [hValue] at hPos
        cases hPos
      | _ =>
        rw [hValue] at hKind
        cases hKind
    rw [children, List.map_map]
    refine List.mem_map_of_mem (f := fun m => ofJson m.2) (List.mem_filter.mpr ⟨hm, ?_⟩)
    rw [hNone, isField]
    simpa using hKey

theorem hasDeepest_inherited : Inherited HasDeepest := by
  have hSelf : ∀ {v : Value}, v.nesting = 1 →
      ∃ p, (top (ofJson v)).Holds p ∧ p.value.isComposite ∧ p.steps.length + 1 = v.nesting := by
    intro v hOne
    exact ⟨_, .self, isComposite_ofJson.mpr (hOne ▸ Nat.one_pos), hOne.symm⟩
  constructor
  · intro _ v _ hScalar _ hPos
    cases hScalar <;> cases hPos
  · intro items hItems hSpan _
    rcases Nat.eq_zero_or_pos (nestingOfItems items) with hFlat | hPos
    · exact hSelf (congrArg (· + 1) hFlat)
    · obtain ⟨item, hItem, hNesting⟩ := exists_nesting_eq_items hPos
      refine hasDeepest_of_child ?_ (hItems item hItem) (hNesting ▸ hPos)
        (congrArg (· + 1) hNesting) hSpan
      rw [ofJson_array]
      exact List.mem_map_of_mem hItem
  · intro fields hKeys _ hFields hSpan _
    rcases Nat.eq_zero_or_pos (nestingOfFields fields) with hFlat | hPos
    · exact hSelf (congrArg (· + 1) hFlat)
    · obtain ⟨m, hm, hNesting⟩ := exists_nesting_eq_fields hPos
      exact hasDeepest_of_child (mem_children_object hKeys hSpan hm (hNesting ▸ hPos))
        (hFields m hm) (hNesting ▸ hPos) (congrArg (· + 1) hNesting) hSpan

/-- Where nothing is skipped and no span is lifted out, the nesting of what is read is the number of
levels. -/
theorem isGreatest_level_of_read {text : List UInt8} (h : read text = .ok v)
    (hSpan : HasNoSpan v) :
    IsGreatest {d | ∃ p ∈ (ofJson v).emitted .emit, p.level .emit = d} (max v.nesting 1 - 1) := by
  constructor
  · rcases Nat.eq_zero_or_pos v.nesting with hFlat | hPos
    · refine ⟨top (ofJson v), mem_emitted_iff.mpr ⟨.self, by simp [Policy.emits, top]⟩, ?_⟩
      rw [hFlat]
      rfl
    · obtain ⟨p, hp, hComposite, hDepth⟩ := hasDeepest_inherited.of_read h hSpan hPos
      refine ⟨p, mem_emitted_iff.mpr ⟨hp, by simp [Policy.emits, hComposite]⟩, ?_⟩
      rw [level_emit hp]
      omega
  · rintro d ⟨p, hp, rfl⟩
    exact level_le_of_emitted hp

end SyntaxDrawing
