import SyntaxDrawing.Layout.Basic
import Mathlib.Data.List.Induction
import Mathlib.Data.List.Nodup
import Mathlib.Order.Fin.Basic

/-!
# Resolving edges

Of several nodes with an id, the last one holds it, and an edge joins the holders of its two ends.
If all ids differ, each node holds its own.
-/

namespace SyntaxDrawing.Layout

variable {n : Nat} {ids : Vector String n}

theorem getElem?_lastHolders (ids : Vector String n) (s : String) :
    (lastHolders ids)[s]? = (List.finRange n).reverse.find? fun i => ids.get i = s := by
  have hFold : ∀ nodes : List (Fin n),
      (nodes.foldl (fun holders i => holders.insert (ids.get i) i)
        (∅ : Std.TreeMap String (Fin n)))[s]? = nodes.reverse.find? fun i => ids.get i = s := by
    intro nodes
    induction nodes using List.reverseRecOn with
    | nil => simp
    | append_singleton nodes i ih =>
      rw [List.foldl_append, List.foldl_cons, List.foldl_nil, Std.TreeMap.getElem?_insert, ih,
        List.reverse_append, List.reverse_singleton, List.singleton_append, List.find?_cons]
      by_cases hs : ids.get i = s
      · simp [hs]
      · simp [hs]
  exact hFold (List.finRange n)

theorem getElem?_lastHolders_eq_some_iff {s : String} {i : Fin n} :
    (lastHolders ids)[s]? = some i ↔ ids.get i = s ∧ ∀ j, i < j → ids.get j ≠ s := by
  have hLast : ∀ k, (lastHolders ids)[s]? = some k →
      ids.get k = s ∧ ∀ j, k < j → ids.get j ≠ s := by
    intro k hk
    rw [getElem?_lastHolders, List.find?_eq_some_iff_append] at hk
    obtain ⟨hId, later, earlier, hSplit, hOthers⟩ := hk
    refine ⟨of_decide_eq_true hId, ?_⟩
    intro j hj
    have hMem : j ∈ later ++ k :: earlier := hSplit ▸ List.mem_reverse.mpr (List.mem_finRange j)
    have hOrder := List.pairwise_reverse.mpr (List.pairwise_lt_finRange n)
    rw [hSplit, List.pairwise_append, List.pairwise_cons] at hOrder
    rcases List.mem_append.mp hMem with hLater | hRest
    · simpa using hOthers j hLater
    · rcases List.mem_cons.mp hRest with rfl | hEarlier
      · exact absurd hj (lt_irrefl j)
      · exact absurd hj (lt_asymm (hOrder.2.1.1 j hEarlier))
  constructor
  · exact hLast i
  · rintro ⟨hId, hNone⟩
    have hSome : ((lastHolders ids)[s]?).isSome := by
      rw [getElem?_lastHolders, List.find?_isSome]
      exact ⟨i, List.mem_reverse.mpr (List.mem_finRange i), decide_eq_true hId⟩
    obtain ⟨k, hk⟩ := Option.isSome_iff_exists.mp hSome
    obtain ⟨hKId, hKNone⟩ := hLast k hk
    rcases lt_trichotomy i k with hLt | rfl | hGt
    · exact absurd hKId (hNone k hLt)
    · exact hk
    · exact absurd hId (hKNone i hGt)

theorem mem_resolve_iff {edges : List Edge} {l : Link n} :
    l ∈ resolve ids edges ↔ ∃ e ∈ edges, (lastHolders ids)[e.source]? = some l.source ∧
      (lastHolders ids)[e.target]? = some l.target := by
  simp only [resolve, List.mem_filterMap]
  constructor
  · rintro ⟨e, he, hLink⟩
    refine ⟨e, he, ?_⟩
    split at hLink
    · rename_i s t hSource hTarget
      cases hLink
      exact ⟨hSource, hTarget⟩
    · cases hLink
  · rintro ⟨e, he, hSource, hTarget⟩
    refine ⟨e, he, ?_⟩
    rw [hSource, hTarget]

theorem getElem?_lastHolders_of_injective (hIds : Function.Injective ids.get) {s : String}
    {i : Fin n} : (lastHolders ids)[s]? = some i ↔ s = ids.get i := by
  rw [getElem?_lastHolders_eq_some_iff]
  constructor
  · exact fun h => h.1.symm
  · rintro rfl
    exact ⟨rfl, fun j hj hEq => hj.ne (hIds hEq.symm)⟩

/-- If no id is repeated, a link joins the two nodes that an edge names. -/
theorem mem_resolve_iff_of_injective (hIds : Function.Injective ids.get)
    {edges : List Edge} {l : Link n} :
    l ∈ resolve ids edges ↔
      ∃ e ∈ edges, e.source = ids.get l.source ∧ e.target = ids.get l.target := by
  simp only [mem_resolve_iff, getElem?_lastHolders_of_injective hIds]

theorem mem_roots_iff_children (links : List (Link n)) (i : Fin n) :
    i ∈ roots links ↔ ∀ j, i ∉ (childTable links).get j := by
  rw [mem_roots_iff]
  constructor
  · intro h j hj
    rw [get_childTable] at hj
    obtain ⟨l, hl, hTarget⟩ := List.mem_map.mp hj
    exact h l (List.mem_of_mem_filter hl) hTarget
  · rintro h l hl rfl
    apply h l.source
    rw [get_childTable]
    exact List.mem_map.mpr ⟨l, List.mem_filter.mpr ⟨hl, decide_eq_true rfl⟩, rfl⟩

theorem nodup_roots (links : List (Link n)) : (roots links).Nodup :=
  (List.nodup_finRange n).filter _

def targetFrom? (ids : Vector String n) (i : Fin n) (e : Edge) : Option (Fin n) :=
  if (lastHolders ids)[e.source]? = some i then (lastHolders ids)[e.target]? else none

theorem get_childTable_resolve (i : Fin n) :
    (childTable (resolve ids edges)).get i = edges.filterMap (targetFrom? ids i) := by
  rw [get_childTable, resolve, List.filter_filterMap, List.map_filterMap]
  apply List.filterMap_congr
  intro e _
  rw [targetFrom?]
  cases (lastHolders ids)[e.source]? with
  | none => simp
  | some s =>
    cases (lastHolders ids)[e.target]? with
    | none => simp
    | some t =>
      by_cases hs : s = i
      · simp [hs]
      · simp [hs]

theorem mem_toList_iff {s : String} : s ∈ ids.toList ↔ ∃ j, ids.get j = s := by
  rw [Vector.mem_toList_iff, Vector.mem_iff_getElem]
  constructor
  · rintro ⟨k, hk, rfl⟩
    exact ⟨⟨k, hk⟩, rfl⟩
  · rintro ⟨j, rfl⟩
    exact ⟨j, j.isLt, rfl⟩

def Known (ids : List String) (e : Edge) : Prop :=
  e.source ∈ ids ∧ e.target ∈ ids

instance (ids : List String) (e : Edge) : Decidable (Known ids e) :=
  inferInstanceAs (Decidable (e.source ∈ ids ∧ e.target ∈ ids))

def edgesFrom (ids : List String) (s : String) (edges : List Edge) : List Edge :=
  edges.filter fun e => e.source = s ∧ Known ids e

/-- If no id is repeated, the children of a node have the ids that the edges from its id name. -/
theorem map_children_eq_edgesFrom (hIds : Function.Injective ids.get) (edges : List Edge)
    (i : Fin n) : ((childTable (resolve ids edges)).get i).map ids.get =
      (edgesFrom ids.toList (ids.get i) edges).map Edge.target := by
  rw [get_childTable_resolve, List.map_filterMap, edgesFrom, ← List.filterMap_eq_map,
    ← List.filterMap_eq_filter, List.filterMap_filterMap]
  apply List.filterMap_congr
  intro e _
  have hSome := fun j => getElem?_lastHolders_of_injective hIds (s := e.target) (i := j)
  simp only [targetFrom?, getElem?_lastHolders_of_injective hIds, Option.guard, Known]
  by_cases hSource : e.source = ids.get i
  · have hKnown : e.source ∈ ids.toList := mem_toList_iff.mpr ⟨i, hSource.symm⟩
    cases hTarget : (lastHolders ids)[e.target]? with
    | none =>
      have hUnknown : e.target ∉ ids.toList := by
        rw [mem_toList_iff]
        rintro ⟨j, hj⟩
        rw [(hSome j).mpr hj.symm] at hTarget
        cases hTarget
      simp [hSource, hUnknown]
    | some j =>
      have hEq := (hSome j).mp hTarget
      have hMem : e.target ∈ ids.toList := mem_toList_iff.mpr ⟨j, hEq.symm⟩
      rw [hSource] at hKnown
      rw [hEq] at hMem
      simp [hSource, hEq, hMem, hKnown]
  · simp [hSource]

theorem map_children_of_injective (hIds : Function.Injective ids.get) {edges : List Edge}
    (hTargets : ∀ e ∈ edges, ∃ j, ids.get j = e.target) (i : Fin n) :
    ((childTable (resolve ids edges)).get i).map ids.get =
      (edges.filter fun e => e.source = ids.get i).map Edge.target := by
  rw [map_children_eq_edgesFrom hIds, edgesFrom]
  congr 1
  apply List.filter_congr
  intro e he
  have hTarget : e.target ∈ ids.toList := mem_toList_iff.mpr (hTargets e he)
  have hSource : e.source = ids.get i → e.source ∈ ids.toList := fun h =>
    mem_toList_iff.mpr ⟨i, h.symm⟩
  simpa [Known, hTarget] using hSource

theorem filterMap_sublist_map {β γ : Type} {f : β → Option γ} {g : β → γ}
    (h : ∀ x y, f x = some y → y = g x) (xs : List β) :
    (xs.filterMap f).Sublist (xs.map g) := by
  induction xs with
  | nil => exact List.Sublist.refl _
  | cons x rest ih =>
    cases hx : f x with
    | none =>
      rw [List.filterMap_cons_none hx]
      exact ih.cons _
    | some y =>
      rw [List.filterMap_cons_some hx, List.map_cons, h x y hx]
      exact ih.cons_cons _

theorem map_target_resolve_sublist (ids : Vector String n) (edges : List Edge) :
    ((resolve ids edges).map fun l => ids.get l.target).Sublist (edges.map Edge.target) := by
  rw [resolve, List.map_filterMap]
  apply filterMap_sublist_map
  intro e s hs
  obtain ⟨l, hl, rfl⟩ := Option.map_eq_some_iff.mp hs
  split at hl
  · next _ _ _ hTarget =>
    cases hl
    exact (getElem?_lastHolders_eq_some_iff.mp hTarget).1
  · cases hl

theorem get_nodeIds {α : Type} [Coordinate α] (nodes : List (Node α)) (i : Fin nodes.length) :
    (nodeIds nodes).get i = (nodes.get i).id := by
  simp [nodeIds, get_eq_getElem]

theorem toList_nodeIds {α : Type} [Coordinate α] (nodes : List (Node α)) :
    (nodeIds nodes).toList = nodes.map Node.id := by
  simp [nodeIds]

theorem nodeIds_injective {α : Type} [Coordinate α] {nodes : List (Node α)}
    (h : (nodes.map Node.id).Nodup) :
    Function.Injective (nodeIds nodes).get := by
  intro i j hEq
  simp only [get_nodeIds] at hEq
  have hId : (nodes.map Node.id)[i.val]? = (nodes.map Node.id)[j.val]? := by
    rw [List.getElem?_map, List.getElem?_map, List.getElem?_eq_getElem i.isLt,
      List.getElem?_eq_getElem j.isLt]
    exact congrArg some hEq
  exact Fin.ext ((List.getElem?_inj (by simp) h).mp hId)

end SyntaxDrawing.Layout
