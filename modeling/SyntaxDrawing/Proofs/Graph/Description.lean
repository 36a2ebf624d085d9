import SyntaxDrawing.Proofs.Graph.Outline
import SyntaxDrawing.Proofs.Tree.DocumentOrder
import Mathlib.Data.List.Forall2

/-!
# What a built graph holds

Without a walk, a graph is described by the occurrences that become nodes, in document order. The
id of a node counts those with its tag up to its own, and its edge comes from the nearest enclosing
one. `visit_graph_eq_described` says that the walk builds the graph so described.
-/

namespace SyntaxDrawing

inductive Tree.Labelled : Tree → String → Prop
  | scalar (s : Scalar) : Labelled (.scalar s) s.text
  | sequence (items : List Tree) : Labelled (.sequence items) "[...]"
  | quoted {kind text : String} {span : Option Span} {fields : List (String × Tree)}
      (h : Json.lookup? "value" fields = some (.scalar (.string text))) :
      Labelled (.node kind span fields) (kind ++ ": \"" ++ text ++ "\"")
  | plain {kind : String} {span : Option Span} {fields : List (String × Tree)}
      (h : ∀ text, Json.lookup? "value" fields ≠ some (.scalar (.string text))) :
      Labelled (.node kind span fields) kind
  | bare : Labelled (.mapping []) "\x7b\x7d"
  | entry (key : String) (t : Tree) :
      Labelled (.mapping [(key, t)]) (key ++ ": " ++ t.toJson.compact)
  | entries (key : String) (t : Tree) {field : String × Tree} {rest : List (String × Tree)}
      {label : String} (h : Labelled (.mapping (field :: rest)) label) :
      Labelled (.mapping ((key, t) :: field :: rest))
        (key ++ ": " ++ t.toJson.compact ++ ", " ++ label)

namespace Tree

theorem mappingLabel_cons_cons (key : String) (t : Tree) (field : String × Tree)
    (rest : List (String × Tree)) :
    mappingLabel ((key, t) :: field :: rest) =
      key ++ ": " ++ t.toJson.compact ++ ", " ++ mappingLabel (field :: rest) := by
  simp only [mappingLabel, List.isEmpty_cons, Bool.false_eq_true, if_false, List.map_cons]
  exact String.intercalate_cons_cons

theorem labelled_mapping (fields : List (String × Tree)) :
    (mapping fields).Labelled (mappingLabel fields) := by
  induction fields with
  | nil => exact .bare
  | cons field rest ih =>
    obtain ⟨key, t⟩ := field
    cases rest with
    | nil =>
      have hLabel : mappingLabel [(key, t)] = key ++ ": " ++ t.toJson.compact :=
        String.intercalate_singleton (s := ", ")
      rw [hLabel]
      exact .entry key t
    | cons next rest =>
      rw [mappingLabel_cons_cons]
      exact .entries key t ih

theorem labelled_label (t : Tree) : t.Labelled t.label := by
  cases t with
  | scalar s => exact .scalar s
  | sequence items => exact .sequence items
  | mapping fields => exact labelled_mapping fields
  | node kind span fields =>
    rw [label]
    split
    · next text hText =>
      rw [stringValue?] at hText
      split at hText
      · next s hLookup =>
        cases hText
        exact .quoted hLookup
      · cases hText
    · next hNone =>
      apply Labelled.plain
      intro text hLookup
      rw [stringValue?, valueField, hLookup] at hNone
      cases hNone

def number (policy : Policy) (t : Tree) (p : Occurrence) : Nat :=
  (t.emitted policy).countP fun q => q.value.tag = p.value.tag ∧ ¬ p.Before q

def idAt (policy : Policy) (t : Tree) (p : Occurrence) : String :=
  p.value.tag ++ "_" ++ Nat.repr (t.number policy p)

end Tree

variable {policy : Policy} {t : Tree}

theorem countP_not_before {ps : List Occurrence} (hOrder : ps.Pairwise Occurrence.Before) {k : Nat}
    {p : Occurrence} (hk : ps[k]? = some p) (tag : String) :
    ps.countP (fun q => q.value.tag = tag ∧ ¬ p.Before q) =
      ((ps.take (k + 1)).map fun q => q.value.tag).count tag := by
  obtain ⟨hLt, hp⟩ := List.getElem?_eq_some_iff.mp hk
  rw [List.pairwise_iff_getElem] at hOrder
  have hUpTo : ∀ q ∈ ps.take (k + 1), ¬ p.Before q := by
    intro q hq hBefore
    obtain ⟨i, hi, rfl⟩ := List.mem_take_iff_getElem.mp hq
    rw [← hp] at hBefore
    rcases Nat.lt_or_eq_of_le (show i ≤ k by omega) with hLess | rfl
    · exact hBefore.asymm (hOrder i k (by omega) hLt hLess)
    · exact ps[i].before_irrefl hBefore
  have hBeyond : ∀ q ∈ ps.drop (k + 1), p.Before q := by
    intro q hq
    obtain ⟨i, hi, rfl⟩ := List.mem_drop_iff_getElem.mp hq
    rw [← hp]
    exact hOrder k (k + 1 + i) hLt (by omega) (by omega)
  have hRest : (ps.drop (k + 1)).countP
      (fun q => decide (q.value.tag = tag ∧ ¬ p.Before q)) = 0 := by
    rw [List.countP_eq_zero]
    intro q hq
    simp [hBeyond q hq]
  conv_lhs => rw [← List.take_append_drop (k + 1) ps]
  rw [List.countP_append, hRest, Nat.add_zero, List.count, List.countP_map]
  apply List.countP_congr
  intro q hq
  simp [hUpTo q hq]

theorem idsOf_tags_emitted (policy : Policy) (t : Tree) :
    idsOf ((t.emitted policy).map fun p => p.value.tag) =
      (t.emitted policy).map (t.idAt policy) := by
  apply List.ext_getElem
  · simp
  · intro k hk hk'
    rw [List.length_map] at hk'
    have hNumber := countP_not_before (t.pairwise_emitted policy)
      (List.getElem?_eq_getElem hk') (t.emitted policy)[k].value.tag
    simp only [idsOf, List.getElem_map, List.getElem_zipIdx, Nat.zero_add, Tree.idAt, Tree.number,
      hNumber, List.map_take, Draft.idOf]

theorem nodup_map_idAt (policy : Policy) (t : Tree) :
    ((t.emitted policy).map (t.idAt policy)).Nodup := by
  rw [← idsOf_tags_emitted]
  exact nodup_idsOf _

theorem eq_of_idAt_eq {p q : Occurrence} (hp : p ∈ t.emitted policy) (hq : q ∈ t.emitted policy)
    (h : t.idAt policy p = t.idAt policy q) : p = q :=
  List.inj_on_of_nodup_map (nodup_map_idAt policy t) hp hq h

section

variable {α : Type} [Coordinate α]

/-- The graph of the occurrences that become nodes, with an edge from `outer`, if that is given, to
those that no other one encloses. -/
def Graph.described (policy : Policy) (outer : Option String) (t : Tree) : Graph α where
  nodes := (t.emitted policy).map fun p => .ofSource (t.idAt policy p) p.value.label p.value
  edges := (t.emitted policy).filterMap fun p =>
    (((p.nearest? policy).map (t.idAt policy)).or outer).map (.between · (t.idAt policy p))

theorem idsOfRows_eq {rows : List Row} (hRows : rows.map Row.occurrence = t.emitted policy) :
    idsOfRows rows = rows.map fun r => t.idAt policy r.occurrence := by
  have hTags : rows.map Row.tag = (t.emitted policy).map fun p => p.value.tag := by
    rw [← hRows, List.map_map]
    rfl
  rw [idsOfRows, hTags, idsOf_tags_emitted, ← hRows, List.map_map]
  rfl

theorem parentId_eq {rows : List Row} (hRows : rows.map Row.occurrence = t.emitted policy)
    (hLinked : Linked policy rows) {r : Row} (hr : r ∈ rows) (outer : Option String) :
    parentId outer (idsOfRows rows) r.owner =
      ((r.occurrence.nearest? policy).map (t.idAt policy)).or outer := by
  obtain ⟨k, hk⟩ := List.getElem?_of_mem hr
  cases hOwner : r.owner with
  | none =>
    rw [(hLinked.owner_eq_none_iff hk).mp hOwner]
    rfl
  | some i =>
    obtain ⟨q, hq, hNearest⟩ := hLinked.exists_owner hk hOwner
    rw [hNearest, parentId, idsOfRows_eq hRows, List.getElem?_map, hq]
    rfl

theorem ofRows_eq_described {rows : List Row} (hRows : rows.map Row.occurrence = t.emitted policy)
    (hLinked : Linked policy rows) (outer : Option String) :
    (Graph.ofRows outer rows : Graph α) = Graph.described policy outer t := by
  have hNodes : (Graph.ofRows outer rows : Graph α).nodes =
      (Graph.described policy outer t : Graph α).nodes := by
    rw [Graph.described, ← hRows, List.map_map, Graph.ofRows, idsOfRows_eq hRows,
      List.zipWith_map_right, List.zipWith_self]
    rfl
  have hEdges : (Graph.ofRows outer rows : Graph α).edges =
      (Graph.described policy outer t : Graph α).edges := by
    have hZip : rows.zip (idsOfRows rows) = rows.map fun r => (r, t.idAt policy r.occurrence) := by
      rw [idsOfRows_eq hRows, List.zip_map_right, List.zip, List.zipWith_self, List.map_map]
      rfl
    rw [Graph.described, ← hRows, List.filterMap_map, Graph.ofRows, hZip, List.filterMap_map]
    apply List.filterMap_congr
    intro r hr
    simp only [Function.comp_apply, parentId_eq hRows hLinked hr]
  exact congrArg₂ Graph.mk hNodes hEdges

theorem visit_graph_eq_described (policy : Policy) (outer : Option String) (t : Tree) :
    (Draft.visit policy outer .empty t).graph = (Graph.described policy outer t : Graph α) := by
  obtain ⟨rows, hRows, hLinked, hGraph⟩ := exists_outline (α := α) policy outer t
  rw [hGraph, ofRows_eq_described hRows hLinked]

structure Node.StandsFor (policy : Policy) (t : Tree) (p : Occurrence) (node : Node α) : Prop where
  source : node.source = p.value
  span : node.span = p.value.span?
  label : p.value.Labelled node.label
  id : node.id = t.idAt policy p
  position : node.position = .origin

/-- The nodes of a built graph are, in document order, the top of the tree and the composite values
that it holds, without mappings if those are skipped. The edges lead, in that order, from the
nearest enclosing one of these to each that has one. -/
theorem build_enumerates_preorder (policy : Policy) (t : Tree) :
    let graph : Graph α := Graph.build policy t
    (∀ p, p ∈ t.emitted policy ↔ (Occurrence.top t).Holds p ∧
      (p = .top t ∨ p.value.isComposite) ∧ ¬ (p.value.isMapping ∧ policy = .skip)) ∧
    (t.emitted policy).Pairwise Occurrence.Before ∧
    List.Forall₂ (Node.StandsFor policy t) (t.emitted policy) graph.nodes ∧
    graph.edges = (t.emitted policy).filterMap fun p =>
      (p.nearest? policy).map fun q => .between (t.idAt policy q) (t.idAt policy p) := by
  intro graph
  have hGraph : graph = Graph.described policy none t := visit_graph_eq_described policy none t
  refine ⟨?_, t.pairwise_emitted policy, ?_, ?_⟩
  · intro p
    rw [Tree.mem_emitted_iff]
    apply and_congr_right
    intro hHolds
    rw [hHolds.eq_top_iff, Policy.emits_iff]
  · rw [hGraph, Graph.described, List.forall₂_map_right_iff, List.forall₂_same]
    intro p _
    exact ⟨rfl, rfl, p.value.labelled_label, rfl, rfl⟩
  · rw [hGraph, Graph.described]
    apply List.filterMap_congr
    intro p _
    rw [Option.or_none, Option.map_map]
    rfl

end

end SyntaxDrawing
