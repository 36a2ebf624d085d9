import SyntaxDrawing.Proofs.Graph.Outline
import Mathlib.Data.List.Perm.Basic

/-!
# Built graphs are forests in node order

Every edge of a built graph leads from a node to a later one, no node has two edges into it, and
the edges stand in the order of their targets. If no mapping is skipped there is one top, the first
node, and each further node has the edge of its place.
-/

namespace SyntaxDrawing

theorem length_filter_notMem_add {α : Type} [DecidableEq α] {xs sub : List α} (hNodup : xs.Nodup)
    (hSub : sub.Sublist xs) : (xs.filter (· ∉ sub)).length + sub.length = xs.length := by
  have hPerm : (xs.filter (· ∈ sub)).Perm sub := by
    rw [List.perm_ext_iff_of_nodup (hNodup.filter _) (hSub.nodup hNodup)]
    intro x
    rw [List.mem_filter, decide_eq_true_eq]
    exact ⟨And.right, fun hx => ⟨hSub.subset hx, hx⟩⟩
  have hSplit := List.length_eq_length_filter_add (l := xs) (· ∈ sub)
  have hNot : xs.filter (fun x => !decide (x ∈ sub)) = xs.filter (· ∉ sub) := by
    apply List.filter_congr
    intro x _
    simp
  rw [hPerm.length_eq, hNot] at hSplit
  omega

variable {α : Type} [Coordinate α] {policy : Policy} {outer : Option String} {rows : List Row}

theorem ids_ofRows (outer : Option String) (rows : List Row) :
    (Graph.ofRows outer rows : Graph α).nodes.map Node.id = idsOfRows rows := by
  rw [Graph.ofRows, List.map_zipWith]
  apply List.ext_getElem
  · simp
  · intro k hk hk'
    rw [List.getElem_zipWith]
    rfl

theorem nodup_idsOfRows (rows : List Row) : (idsOfRows rows).Nodup :=
  nodup_idsOf _

theorem nodup_ids_ofRows (outer : Option String) (rows : List Row) :
    ((Graph.ofRows outer rows : Graph α).nodes.map Node.id).Nodup := by
  rw [ids_ofRows]
  exact nodup_idsOfRows rows

/-- No two nodes of a built graph share an id, whatever the kinds in the tree look like. -/
theorem nodup_built_ids (policy : Policy) (t : Tree) :
    ((Graph.build policy t : Graph α).nodes.map Node.id).Nodup ∧
      ∀ parent, ((Graph.buildUnder policy parent t : Graph α).nodes.map Node.id).Nodup := by
  have hNodup : ∀ outer,
      ((Draft.visit policy outer .empty t : Draft α).graph.nodes.map Node.id).Nodup := by
    intro outer
    obtain ⟨rows, _, _, hGraph⟩ := exists_outline (α := α) policy outer t
    rw [hGraph]
    exact nodup_ids_ofRows outer rows
  exact ⟨hNodup none, fun parent => hNodup (some parent)⟩

theorem mem_edges_ofRows {e : Edge} :
    e ∈ (Graph.ofRows none rows : Graph α).edges ↔
      ∃ (k : Nat) (r : Row) (i : Nat) (s t : String), rows[k]? = some r ∧ r.owner = some i ∧
        (idsOfRows rows)[i]? = some s ∧ (idsOfRows rows)[k]? = some t ∧ e = .between s t := by
  simp only [Graph.ofRows, List.mem_filterMap]
  constructor
  · rintro ⟨⟨r, t⟩, hMem, hEdge⟩
    obtain ⟨k, hk⟩ := List.getElem?_of_mem hMem
    obtain ⟨hRow, hId⟩ := List.getElem?_zip_eq_some.mp hk
    obtain ⟨s, hParent, rfl⟩ := Option.map_eq_some_iff.mp hEdge
    cases hOwner : r.owner with
    | none =>
      rw [hOwner] at hParent
      cases hParent
    | some i =>
      rw [hOwner] at hParent
      exact ⟨k, r, i, s, t, hRow, hOwner, hParent, hId, rfl⟩
  · rintro ⟨k, r, i, s, t, hRow, hOwner, hParent, hId, rfl⟩
    refine ⟨(r, t), List.mem_of_getElem? (List.getElem?_zip_eq_some.mpr ⟨hRow, hId⟩), ?_⟩
    have hSource : parentId none (idsOfRows rows) r.owner = some s := by
      rw [hOwner]
      exact hParent
    simp only [hSource, Option.map_some]

theorem targets_ofRows (h : Linked policy rows) :
    (Graph.ofRows none rows : Graph α).edges.map Edge.target =
      ((rows.zip (idsOfRows rows)).filter fun p => p.1.owner.isSome).map Prod.snd := by
  have hSource : ∀ p ∈ rows.zip (idsOfRows rows), p.1.owner.isSome →
      (parentId none (idsOfRows rows) p.1.owner).isSome := by
    rintro ⟨r, id⟩ hMem hSome
    obtain ⟨k, hk⟩ := List.getElem?_of_mem (List.of_mem_zip hMem).1
    obtain ⟨i, hi⟩ := Option.isSome_iff_exists.mp hSome
    have hLt := h.owner_lt hk hi
    have hk := (List.getElem?_eq_some_iff.mp hk).1
    simp only at hi ⊢
    rw [hi, parentId, List.getElem?_eq_getElem (by rw [length_idsOfRows]; omega)]
    rfl
  simp only [Graph.ofRows]
  generalize rows.zip (idsOfRows rows) = pairs at hSource ⊢
  induction pairs with
  | nil => rfl
  | cons p rest ih =>
    have hRest := ih fun q hq => hSource q (List.mem_cons_of_mem p hq)
    rw [List.filterMap_cons]
    cases hOwner : p.1.owner with
    | none => simpa [hOwner, parentId] using hRest
    | some i =>
      have hSome := hSource p List.mem_cons_self (by rw [hOwner]; rfl)
      obtain ⟨s, hs⟩ := Option.isSome_iff_exists.mp hSome
      rw [hOwner] at hs
      simpa [hs, hOwner, Edge.between] using hRest

def Graph.tops (graph : Graph α) : List (Node α) :=
  graph.nodes.filter fun n => n.id ∉ graph.edges.map Edge.target

/-- Parents stand before their children, each node has at most one, and the edges follow the order
of the nodes that they lead to. -/
structure Graph.OrderedForest (graph : Graph α) : Prop where
  nodup : (graph.nodes.map Node.id).Nodup
  ends : ∀ e ∈ graph.edges, ∃ i k : Nat, i < k ∧ (graph.nodes.map Node.id)[i]? = some e.source ∧
    (graph.nodes.map Node.id)[k]? = some e.target
  targets : (graph.edges.map Edge.target).Sublist (graph.nodes.map Node.id)
  once : (graph.edges.map Edge.target).Nodup
  tops : graph.tops.length + graph.edges.length = graph.nodes.length

theorem ofRows_orderedForest (h : Linked policy rows) :
    (Graph.ofRows none rows : Graph α).OrderedForest := by
  have hIds := ids_ofRows (α := α) none rows
  have hTargets : ((Graph.ofRows none rows : Graph α).edges.map Edge.target).Sublist
      ((Graph.ofRows none rows : Graph α).nodes.map Node.id) := by
    rw [targets_ofRows h, hIds]
    have hSub := (List.filter_sublist (p := fun p : Row × String => p.1.owner.isSome)
      (l := rows.zip (idsOfRows rows))).map Prod.snd
    rwa [List.map_snd_zip (by simp)] at hSub
  have hNodup := nodup_ids_ofRows (α := α) none rows
  refine ⟨hNodup, ?_, hTargets, hTargets.nodup hNodup, ?_⟩
  · intro e he
    obtain ⟨k, r, i, s, t, hRow, hOwner, hSource, hTarget, rfl⟩ := mem_edges_ofRows.mp he
    rw [hIds]
    exact ⟨i, k, h.owner_lt hRow hOwner, hSource, hTarget⟩
  · have hCount := length_filter_notMem_add hNodup hTargets
    rw [List.filter_map, List.length_map, List.length_map, List.length_map] at hCount
    exact hCount

/-- If nothing is skipped, every row but the first has an owner. -/
theorem owners_of_emit {t : Tree} (hRows : rows.map Row.occurrence = t.emitted .emit)
    (h : Linked .emit rows) :
    ∃ first rest, rows = first :: rest ∧ first.owner = none ∧ ∀ r ∈ rest, r.owner.isSome := by
  obtain ⟨more, hEmitted, hMore⟩ := t.emitted_emit
  rw [hEmitted] at hRows
  obtain ⟨first, rest, rfl, hFirst, rfl⟩ := List.map_eq_cons_iff.mp hRows
  refine ⟨first, rest, rfl, ?_, ?_⟩
  · rw [h.owner_eq_none_iff (k := 0) rfl, hFirst]
    rfl
  · intro r hr
    obtain ⟨k, hk⟩ := List.getElem?_of_mem (List.mem_cons_of_mem first hr)
    have hNearest := hMore r.occurrence (List.mem_map_of_mem hr)
    rw [Option.isSome_iff_ne_none] at hNearest ⊢
    rwa [Ne, h.owner_eq_none_iff hk]

theorem targets_of_owners {first : Row} {rest : List Row} (h : Linked policy (first :: rest))
    (hFirst : first.owner = none) (hRest : ∀ r ∈ rest, r.owner.isSome) :
    (Graph.ofRows none (first :: rest) : Graph α).edges.map Edge.target =
      (idsOfRows (first :: rest)).tail := by
  rw [targets_ofRows h]
  cases hIds : idsOfRows (first :: rest) with
  | nil => simp
  | cons id ids =>
    have hLength : ids.length = rest.length := by
      simpa [hIds] using length_idsOfRows (first :: rest)
    have hAll : (rest.zip ids).filter (fun p => p.1.owner.isSome) = rest.zip ids := by
      rw [List.filter_eq_self]
      intro p hp
      exact hRest p.1 (List.of_mem_zip hp).1
    rw [List.zip_cons_cons, List.filter_cons_of_neg (by simp [hFirst]), hAll,
      List.map_snd_zip (by omega), List.tail_cons]

omit [Coordinate α] in
theorem tops_of_targets {graph : Graph α} {root : Node α} {rest : List (Node α)}
    (hNodup : (graph.nodes.map Node.id).Nodup) (hNodes : graph.nodes = root :: rest)
    (hTargets : graph.edges.map Edge.target = rest.map Node.id) : graph.tops = [root] := by
  rw [hNodes, List.map_cons, List.nodup_cons] at hNodup
  rw [Graph.tops, hNodes, hTargets, List.filter_cons_of_pos (by simpa using hNodup.1),
    List.cons.injEq]
  refine ⟨rfl, ?_⟩
  rw [List.filter_eq_nil_iff]
  intro n hn
  simpa using ⟨n, hn, rfl⟩

/-- Built graphs are forests in node order. With no mapping skipped, only the first node is a top,
and the `k`-th edge leads to the node behind the `k`-th. -/
theorem build_orderedForest (policy : Policy) (t : Tree) :
    (Graph.build policy t : Graph α).OrderedForest ∧
      (policy = .emit → ∃ root rest, (Graph.build policy t : Graph α).nodes = root :: rest ∧
        (Graph.build policy t : Graph α).tops = [root] ∧
        (Graph.build policy t : Graph α).edges.map Edge.target = rest.map Node.id) := by
  obtain ⟨rows, hRows, hLinked, hGraph⟩ := exists_outline (α := α) policy none t
  have hGraph : Graph.build policy t = (Graph.ofRows none rows : Graph α) := hGraph
  have hForest : (Graph.ofRows none rows : Graph α).OrderedForest := ofRows_orderedForest hLinked
  rw [hGraph]
  refine ⟨hForest, ?_⟩
  rintro rfl
  obtain ⟨first, more, rfl, hFirst, hMore⟩ := owners_of_emit hRows hLinked
  have hTargets := targets_of_owners (α := α) hLinked hFirst hMore
  rw [← ids_ofRows (α := α) none] at hTargets
  cases hNodes : (Graph.ofRows none (first :: more) : Graph α).nodes with
  | nil =>
    have hLength := congrArg List.length (ids_ofRows (α := α) none (first :: more))
    simp [hNodes] at hLength
  | cons root rest =>
    rw [hNodes, List.map_cons, List.tail_cons] at hTargets
    exact ⟨root, rest, rfl, tops_of_targets hForest.nodup hNodes hTargets, hTargets⟩

end SyntaxDrawing
