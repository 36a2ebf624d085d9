import SyntaxDrawing.Proofs.Graph.Identifier
import SyntaxDrawing.Proofs.Tree.Occurrence

/-!
# The outline of a graph

An outline lists the occurrences that become nodes in document order, each with the number of the
row of its nearest enclosing one. `exists_outline` says that the walk over a tree draws the graph
of its outline: the counts of the walk are the numbers in the ids, and the parent that it hands
down is the id of the owner's row.
-/

namespace SyntaxDrawing

structure Row where
  occurrence : Occurrence
  owner : Option Nat

namespace Row

def tag (r : Row) : String :=
  r.occurrence.value.tag

def node {α : Type} [Coordinate α] (r : Row) (id : String) : Node α :=
  .ofSource id r.occurrence.value.label r.occurrence.value

end Row

/-- The id that an edge comes from: that of the owner, or of what the graph hangs below. -/
def parentId (outer : Option String) (ids : List String) : Option Nat → Option String
  | none => outer
  | some i => ids[i]?

def idsOfRows (rows : List Row) : List String :=
  idsOf (rows.map Row.tag)

def Graph.ofRows {α : Type} [Coordinate α] (outer : Option String) (rows : List Row) : Graph α :=
  { nodes := List.zipWith Row.node rows (idsOfRows rows)
    edges := (rows.zip (idsOfRows rows)).filterMap fun (r, id) =>
      (parentId outer (idsOfRows rows) r.owner).map (Edge.between · id) }

@[simp] theorem length_idsOfRows (rows : List Row) : (idsOfRows rows).length = rows.length := by
  simp [idsOfRows]

theorem idsOfRows_append_singleton (rows : List Row) (r : Row) :
    idsOfRows (rows ++ [r]) =
      idsOfRows rows ++ [Draft.idOf r.tag ((rows.map Row.tag).count r.tag + 1)] := by
  rw [idsOfRows, List.map_append, List.map_singleton, idsOf_append_singleton]
  rfl

theorem getElem?_idsOfRows_append (rows more : List Row) {i : Nat} (hi : i < rows.length) :
    (idsOfRows (rows ++ more))[i]? = (idsOfRows rows)[i]? := by
  induction more using List.reverseRecOn with
  | nil => rw [List.append_nil]
  | append_singleton more r ih =>
    rw [← List.append_assoc, idsOfRows_append_singleton, List.getElem?_append_left, ih]
    rw [length_idsOfRows, List.length_append]
    omega

variable {policy : Policy} {outer : Option String}

/-- The owner of an occurrence is the row of the nearest enclosing one that becomes a node. -/
def Owns (policy : Policy) (rows : List Row) (p : Occurrence) (owner : Option Nat) : Prop :=
  owner = none ∧ p.nearest? policy = none ∨
    ∃ i q, owner = some i ∧ rows[i]? = some q ∧ p.nearest? policy = some q.occurrence

/-- Rows whose owners stand before them. -/
def Linked (policy : Policy) (rows : List Row) : Prop :=
  ∀ k r, rows[k]? = some r → Owns policy (rows.take k) r.occurrence r.owner

theorem Owns.append {rows : List Row} {p : Occurrence} {owner : Option Nat}
    (h : Owns policy rows p owner) (more : List Row) : Owns policy (rows ++ more) p owner := by
  rcases h with hNone | ⟨i, q, hOwner, hRow, hNearest⟩
  · exact Or.inl hNone
  · have hi : i < rows.length := (List.getElem?_eq_some_iff.mp hRow).1
    exact Or.inr ⟨i, q, hOwner, by rw [List.getElem?_append_left hi, hRow], hNearest⟩

theorem Owns.lt {rows : List Row} {p : Occurrence} {owner : Option Nat}
    (h : Owns policy rows p owner) {i : Nat} (hi : owner = some i) : i < rows.length := by
  rcases h with ⟨hNone, _⟩ | ⟨j, q, hOwner, hRow, _⟩
  · rw [hNone] at hi
    cases hi
  · rw [hOwner] at hi
    cases hi
    exact (List.getElem?_eq_some_iff.mp hRow).1

theorem Owns.parentId_append {rows : List Row} {p : Occurrence} {owner : Option Nat}
    (h : Owns policy rows p owner) (more : List Row) :
    parentId outer (idsOfRows (rows ++ more)) owner = parentId outer (idsOfRows rows) owner := by
  cases hi : owner with
  | none => rfl
  | some i => exact getElem?_idsOfRows_append rows more (h.lt hi)

theorem Linked.owner_lt {rows : List Row} (h : Linked policy rows) {k : Nat} {r : Row}
    (hr : rows[k]? = some r) {i : Nat} (hi : r.owner = some i) : i < k := by
  have hLt := (h k r hr).lt hi
  rw [List.length_take] at hLt
  omega

theorem Linked.exists_owner {rows : List Row} (h : Linked policy rows) {k : Nat} {r : Row}
    (hr : rows[k]? = some r) {i : Nat} (hi : r.owner = some i) :
    ∃ q, rows[i]? = some q ∧ r.occurrence.nearest? policy = some q.occurrence := by
  have hLt := h.owner_lt hr hi
  rcases h k r hr with ⟨hNone, _⟩ | ⟨j, q, hOwner, hRow, hNearest⟩
  · rw [hNone] at hi
    cases hi
  · rw [hOwner] at hi
    cases hi
    rw [List.getElem?_take_of_lt hLt] at hRow
    exact ⟨q, hRow, hNearest⟩

theorem Linked.owner_eq_none_iff {rows : List Row} (h : Linked policy rows) {k : Nat} {r : Row}
    (hr : rows[k]? = some r) : r.owner = none ↔ r.occurrence.nearest? policy = none := by
  rcases h k r hr with ⟨hOwner, hNearest⟩ | ⟨i, q, hOwner, _, hNearest⟩
  · rw [hOwner, hNearest]
    exact iff_of_true rfl rfl
  · rw [hOwner, hNearest]
    exact iff_of_false nofun nofun

theorem Linked.append_singleton {rows : List Row} (h : Linked policy rows) {r : Row}
    (hr : Owns policy rows r.occurrence r.owner) : Linked policy (rows ++ [r]) := by
  intro k s hs
  have hk := (List.getElem?_eq_some_iff.mp hs).1
  rw [List.length_append, List.length_singleton] at hk
  rw [List.take_append_of_le_length (by omega)]
  by_cases hLast : k = rows.length
  · subst hLast
    rw [List.getElem?_concat_length] at hs
    cases hs
    rw [List.take_length]
    exact hr
  · rw [List.getElem?_append_left (by omega)] at hs
    exact h k s hs

variable {α : Type} [Coordinate α]

theorem nodes_ofRows_append_singleton (rows : List Row) (r : Row) :
    (Graph.ofRows outer (rows ++ [r]) : Graph α).nodes =
      (Graph.ofRows outer rows).nodes ++
        [r.node (Draft.idOf r.tag ((rows.map Row.tag).count r.tag + 1))] := by
  simp only [Graph.ofRows]
  rw [idsOfRows_append_singleton, List.zipWith_append (by simp)]
  rfl

theorem edges_ofRows_append_singleton {rows : List Row} (h : Linked policy rows) (r : Row) :
    (Graph.ofRows outer (rows ++ [r]) : Graph α).edges =
      (Graph.ofRows outer rows : Graph α).edges ++
        ((parentId outer (idsOfRows (rows ++ [r])) r.owner).map
          (Edge.between · (Draft.idOf r.tag ((rows.map Row.tag).count r.tag + 1)))).toList := by
  simp only [Graph.ofRows]
  have hZip : (rows ++ [r]).zip (idsOfRows (rows ++ [r])) = rows.zip (idsOfRows rows) ++
      [(r, Draft.idOf r.tag ((rows.map Row.tag).count r.tag + 1))] := by
    rw [idsOfRows_append_singleton, List.zip_append (by simp)]
    rfl
  rw [hZip, List.filterMap_append]
  congr 1
  apply List.filterMap_congr
  rintro ⟨s, id⟩ hMem
  obtain ⟨k, hk⟩ := List.getElem?_of_mem (List.of_mem_zip hMem).1
  simp only
  cases hOwner : s.owner with
  | none => rfl
  | some i =>
    have hi := h.owner_lt hk hOwner
    have hk := (List.getElem?_eq_some_iff.mp hk).1
    rw [parentId, getElem?_idsOfRows_append rows [r] (by omega)]
    rfl

namespace Draft

structure Records (policy : Policy) (outer : Option String) (d : Draft α) (rows : List Row) :
    Prop where
  counts : ∀ tag, d.counts.getD tag 0 = (rows.map Row.tag).count tag
  nodes : d.nodes.toList = (Graph.ofRows outer rows).nodes
  edges : d.edges.toList = (Graph.ofRows outer rows : Graph α).edges
  linked : Linked policy rows

theorem empty_records : (empty : Draft α).Records policy outer [] :=
  ⟨fun _ => rfl, rfl, rfl, fun _ _ hr => by cases hr⟩

theorem Records.emit {d : Draft α} {rows : List Row} (h : d.Records policy outer rows)
    {p : Occurrence} {owner : Option Nat} (hOwner : Owns policy rows p owner) :
    let added := d.emit (parentId outer (idsOfRows rows) owner) p.value
    added.2.Records policy outer (rows ++ [⟨p, owner⟩]) ∧
      (idsOfRows (rows ++ [⟨p, owner⟩]))[rows.length]? = some added.1 := by
  intro added
  have hNext : d.next p.value.tag = (rows.map Row.tag).count p.value.tag + 1 := by
    rw [next, h.counts]
  refine ⟨⟨?_, ?_, ?_, h.linked.append_singleton hOwner⟩, ?_⟩
  · intro tag
    have hCount : added.2.counts = d.counts.insert p.value.tag (d.next p.value.tag) := rfl
    rw [hCount, Std.TreeMap.getD_insert, hNext, h.counts, List.map_append, List.map_singleton,
      List.count_append, List.count_singleton]
    by_cases hTag : p.value.tag = tag
    · subst hTag
      simp [Row.tag]
    · simp [Row.tag, hTag]
  · have hNodes : added.2.nodes = d.nodes.push
        (.ofSource (idOf p.value.tag (d.next p.value.tag)) p.value.label p.value) := rfl
    rw [hNodes, Array.toList_push, h.nodes, hNext, nodes_ofRows_append_singleton]
    rfl
  · rw [edges_ofRows_append_singleton h.linked, hOwner.parentId_append, ← h.edges]
    simp only [added, Draft.emit]
    cases parentId outer (idsOfRows rows) owner with
    | none => simp
    | some s => simp [hNext, Row.tag]
  · rw [idsOfRows_append_singleton, List.getElem?_append_right (by simp)]
    simp [added, Draft.emit, hNext, Row.tag]

theorem visitFields_eq (parent : Option String) (d : Draft α) (fields : List (String × Tree)) :
    visitFields policy parent d fields = visitItems policy parent d (fields.map (·.2)) := by
  induction fields generalizing d with
  | nil => rw [visitFields, List.map_nil, visitItems]
  | cons field rest ih =>
    obtain ⟨key, t⟩ := field
    rw [visitFields, List.map_cons, visitItems, ih]

theorem visit_eq (parent : Option String) (d : Draft α) (t : Tree) :
    visit policy parent d t =
      if t.isMapping && policy = .skip then visitItems policy parent d t.children
      else visitItems policy (some (d.emit parent t).1) (d.emit parent t).2 t.children := by
  cases t with
  | scalar s => simp [visit, Tree.isMapping, Tree.children, visitItems]
  | sequence items => simp [visit, Tree.isMapping, Tree.children]
  | node kind span fields =>
    simp [visit, Tree.isMapping, Tree.children, visitFields_eq]
  | mapping fields =>
    cases policy <;> simp [visit, Tree.isMapping, Tree.children, visitFields_eq]

/-- The walk over an occurrence adds a row for each one within that becomes a node. -/
def AddsRows (α : Type) [Coordinate α] (policy : Policy) (outer : Option String) (p : Occurrence) :
    Prop :=
  ∀ (d : Draft α) rows owner, d.Records policy outer rows → Owns policy rows p owner →
    ∃ new : List Row, new.map Row.occurrence = p.within.filter policy.emits ∧
      (visit policy (parentId outer (idsOfRows rows) owner) d p.value).Records policy outer
        (rows ++ new)

theorem within_scalar {p : Occurrence} (hScalar : p.value.isComposite = false)
    (hSteps : p.steps ≠ []) : p.within.filter policy.emits = [] := by
  have hInner : p.inner = [] := by
    cases hValue : p.value with
    | scalar s => simp [Occurrence.inner, hValue, Tree.children]
    | _ => simp [hValue, Tree.isComposite] at hScalar
  rw [Occurrence.within_eq, hInner]
  simp [Policy.emits, hScalar, hSteps]

theorem Records.visitItems {owner : Option Nat} {inner : List Occurrence}
    (hRows : ∀ c ∈ inner, c.value.isComposite → AddsRows α policy outer c)
    (hSteps : ∀ c ∈ inner, c.steps ≠ []) {d : Draft α} {rows : List Row}
    (h : d.Records policy outer rows) (hOwner : ∀ c ∈ inner, Owns policy rows c owner) :
    ∃ new : List Row,
      new.map Row.occurrence = (inner.flatMap Occurrence.within).filter policy.emits ∧
      (Draft.visitItems policy (parentId outer (idsOfRows rows) owner) d
        (inner.map Occurrence.value)).Records policy outer (rows ++ new) := by
  induction inner generalizing d rows with
  | nil =>
    refine ⟨[], rfl, ?_⟩
    rw [List.map_nil, Draft.visitItems, List.append_nil]
    exact h
  | cons c rest ih =>
    have hOwnerC := hOwner c List.mem_cons_self
    have hFirst : ∃ new : List Row, new.map Row.occurrence = c.within.filter policy.emits ∧
        (if c.value.isComposite then
          visit policy (parentId outer (idsOfRows rows) owner) d c.value else d).Records
          policy outer (rows ++ new) := by
      by_cases hComposite : c.value.isComposite
      · rw [if_pos hComposite]
        exact hRows c List.mem_cons_self hComposite d rows owner h hOwnerC
      · rw [if_neg hComposite]
        refine ⟨[], ?_, by rwa [List.append_nil]⟩
        rw [within_scalar (by simpa using hComposite) (hSteps c List.mem_cons_self)]
        rfl
    obtain ⟨new, hNew, hRecords⟩ := hFirst
    obtain ⟨more, hMore, hRest⟩ := ih (fun e he => hRows e (List.mem_cons_of_mem c he))
      (fun e he => hSteps e (List.mem_cons_of_mem c he)) hRecords
      (fun e he => (hOwner e (List.mem_cons_of_mem c he)).append new)
    refine ⟨new ++ more, ?_, ?_⟩
    · rw [List.map_append, hNew, hMore, List.flatMap_cons, List.filter_append]
    · rw [hOwnerC.parentId_append, List.append_assoc] at hRest
      rw [List.map_cons, Draft.visitItems]
      exact hRest

theorem addsRows (p : Occurrence) (hp : p.value.isComposite || p.steps.isEmpty) :
    AddsRows α policy outer p := by
  induction p using Occurrence.induction with
  | h p ih =>
    intro d rows owner hRecords hOwner
    have hInner : ∀ c ∈ p.inner, c.value.isComposite → AddsRows α policy outer c := by
      intro c hc hComposite
      exact ih c hc (by rw [hComposite]; rfl)
    have hSteps : ∀ c ∈ p.inner, c.steps ≠ [] := by
      intro c hc
      obtain ⟨_, i, hStep⟩ := Occurrence.exists_step_of_mem_inner hc
      simp [hStep]
    rw [visit_eq, ← Occurrence.map_value_inner, Occurrence.within_eq]
    by_cases hSkip : p.value.isMapping && policy = .skip
    · have hEmits : policy.emits p = false := by simp [Policy.emits, hSkip]
      rw [if_pos hSkip, List.filter_cons_of_neg (by simp [hEmits])]
      apply hRecords.visitItems hInner hSteps
      intro c hc
      rw [Owns, Occurrence.nearest?_inner policy hc, hEmits]
      exact hOwner
    · have hEmits : policy.emits p = true := by simp [Policy.emits, hp, hSkip]
      obtain ⟨hEmitted, hId⟩ := hRecords.emit hOwner
      have hParent : parentId outer (idsOfRows (rows ++ [⟨p, owner⟩])) (some rows.length) =
          some (d.emit (parentId outer (idsOfRows rows) owner) p.value).1 := hId
      have hOwners : ∀ c ∈ p.inner, Owns policy (rows ++ [⟨p, owner⟩]) c (some rows.length) := by
        intro c hc
        refine Or.inr ⟨rows.length, ⟨p, owner⟩, rfl, List.getElem?_concat_length, ?_⟩
        rw [Occurrence.nearest?_inner policy hc, hEmits]
        rfl
      obtain ⟨new, hNew, hRest⟩ := hEmitted.visitItems hInner hSteps hOwners
      rw [if_neg hSkip, List.filter_cons_of_pos hEmits, ← hParent]
      refine ⟨⟨p, owner⟩ :: new, ?_, ?_⟩
      · rw [List.map_cons, hNew]
      · have hSplit : rows ++ ⟨p, owner⟩ :: new = rows ++ [⟨p, owner⟩] ++ new :=
          List.append_cons rows _ new
        rw [hSplit]
        exact hRest

end Draft

theorem exists_outline (policy : Policy) (outer : Option String) (t : Tree) :
    ∃ rows : List Row, rows.map Row.occurrence = t.emitted policy ∧ Linked policy rows ∧
      (Draft.visit policy outer .empty t).graph = (Graph.ofRows outer rows : Graph α) := by
  have hOwner : Owns policy [] (.top t) none := Or.inl ⟨rfl, rfl⟩
  have hAdds : Draft.AddsRows α policy outer (.top t) := Draft.addsRows _ (Bool.or_true _)
  obtain ⟨rows, hRows, hRecords⟩ := hAdds .empty [] none Draft.empty_records hOwner
  refine ⟨rows, hRows, hRecords.linked, ?_⟩
  have hNodes := hRecords.nodes
  have hEdges := hRecords.edges
  rw [List.nil_append] at hNodes hEdges
  rw [Draft.graph]
  exact congrArg₂ Graph.mk hNodes hEdges

end SyntaxDrawing
