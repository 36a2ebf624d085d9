import SyntaxDrawing.Proofs.Graph.Description

/-!
# The ids of edges

The id of an edge joins the ids of its ends by an arrow. Kinds may hold arrows themselves, and then
a joined id may be read in two ways, so that two edges have one id. Nothing else makes ids of edges
meet: they differ wherever no kind holds an arrow.
-/

namespace SyntaxDrawing

theorem arrow_split {xs ys ys' : List Char} (h : '-' :: '>' :: ys = xs ++ '-' :: '>' :: ys') :
    xs = [] ∧ ys = ys' ∨ ∃ m, xs = '-' :: '>' :: m ∧ ys = m ++ '-' :: '>' :: ys' := by
  rcases xs with _ | ⟨x, _ | ⟨y, m⟩⟩
  · left
    simpa using h
  · simp at h
  · right
    simp only [List.cons_append, List.cons.injEq] at h
    obtain ⟨rfl, rfl, hRest⟩ := h
    exact ⟨m, rfl, hRest⟩

/-- The same joined id, read with the arrow at a later place. -/
def Edge.Shifted (e e' : Edge) : Prop :=
  ∃ m, e'.source = e.source ++ "->" ++ m ∧ e.target = m ++ "->" ++ e'.target

theorem Edge.Shifted.ne {e e' : Edge} (h : e.Shifted e') : e.source ≠ e'.source := by
  obtain ⟨m, hSource, -⟩ := h
  intro hSame
  have hLength := congrArg String.length (hSame.trans hSource)
  have hArrow : "->".length = 2 := rfl
  rw [String.length_append, String.length_append, hArrow, hSame] at hLength
  omega

theorem Edge.shifted_of_prefix {s t s' t' : String} {more : List Char}
    (hs : s'.toList = s.toList ++ more)
    (ht : '-' :: '>' :: t.toList = more ++ '-' :: '>' :: t'.toList) :
    s = s' ∧ t = t' ∨ (Edge.between s t).Shifted (.between s' t') := by
  rcases arrow_split ht with ⟨rfl, hTarget⟩ | ⟨m, rfl, hTarget⟩
  · left
    rw [List.append_nil] at hs
    exact ⟨String.toList_injective hs.symm, String.toList_injective hTarget⟩
  · right
    refine ⟨String.ofList m, String.toList_injective ?_, String.toList_injective ?_⟩
    · simpa [Edge.between] using hs
    · simpa [Edge.between] using hTarget

theorem Edge.between_id_eq_iff {s t s' t' : String} :
    (Edge.between s t).id = (Edge.between s' t').id ↔
      s = s' ∧ t = t' ∨ (Edge.between s t).Shifted (.between s' t') ∨
        (Edge.between s' t').Shifted (.between s t) := by
  constructor
  · intro h
    have hChars := congrArg String.toList h
    simp only [Edge.between, String.toList_append, List.append_assoc] at hChars
    rcases List.append_eq_append_iff.mp hChars with ⟨more, hs, ht⟩ | ⟨more, hs, ht⟩
    · rcases Edge.shifted_of_prefix hs ht with hSame | hShifted
      · exact Or.inl hSame
      · exact Or.inr (Or.inl hShifted)
    · rcases Edge.shifted_of_prefix hs ht with ⟨rfl, rfl⟩ | hShifted
      · exact Or.inl ⟨rfl, rfl⟩
      · exact Or.inr (Or.inr hShifted)
  · have hJoined : ∀ {a b : Edge}, a.Shifted b →
        a.source ++ "->" ++ a.target = b.source ++ "->" ++ b.target := by
      rintro a b ⟨m, hSource, hTarget⟩
      rw [hSource, hTarget]
      simp only [String.append_assoc]
    rintro (⟨rfl, rfl⟩ | hShifted | hShifted)
    · rfl
    · exact hJoined hShifted
    · exact (hJoined hShifted).symm

def HasArrow (s : String) : Prop :=
  ['-', '>'] <:+: s.toList

theorem dash_notMem_repr (k : Nat) : '-' ∉ (Nat.repr k).toList := by
  rw [Nat.toList_repr]
  intro hMem
  have hDigit := Nat.isDigit_of_mem_toDigits (by decide) (by decide) hMem
  exact absurd hDigit (by decide)

theorem hasArrow_of_idOf_eq {tag m s : String} {k : Nat}
    (h : Draft.idOf tag k = m ++ "->" ++ s) : HasArrow tag := by
  have hChars := congrArg String.toList h
  simp only [Draft.idOf, String.toList_append, List.append_assoc] at hChars
  rcases List.append_eq_append_iff.mp hChars with ⟨more, -, hRest⟩ | ⟨more, hTag, hRest⟩
  · -- The arrow would stand in the underscore and the number.
    have hMem : '-' ∈ "_".toList ++ (Nat.repr k).toList := by
      rw [hRest]
      simp
    rcases List.mem_append.mp hMem with hUnderscore | hNumber
    · exact absurd hUnderscore (by decide)
    · exact absurd hNumber (dash_notMem_repr k)
  · have hArrow : "->".toList = ['-', '>'] := rfl
    rw [hArrow] at hRest
    rcases more with _ | ⟨c, _ | ⟨d, more⟩⟩
    · simp at hRest
    · simp at hRest
    · simp only [List.cons_append, List.cons.injEq] at hRest
      obtain ⟨rfl, rfl, -⟩ := hRest
      exact ⟨m.toList, more, by rw [hTag, List.append_assoc]; rfl⟩

variable {α : Type} [Coordinate α] {policy : Policy} {t : Tree}

theorem exists_of_mem_edges_described {outer : Option String} {e : Edge}
    (he : e ∈ (Graph.described policy outer t : Graph α).edges) :
    ∃ p ∈ t.emitted policy, e = .between e.source (t.idAt policy p) := by
  obtain ⟨p, hp, hEdge⟩ := List.mem_filterMap.mp he
  obtain ⟨s, -, rfl⟩ := Option.map_eq_some_iff.mp hEdge
  exact ⟨p, hp, rfl⟩

theorem pairwise_target_ne_described (policy : Policy) (outer : Option String) (t : Tree) :
    (Graph.described policy outer t : Graph α).edges.Pairwise (·.target ≠ ·.target) := by
  rw [Graph.described, List.pairwise_filterMap]
  have hIds := nodup_map_idAt policy t
  rw [List.Nodup, List.pairwise_map] at hIds
  refine hIds.imp ?_
  intro p q hNe e he e' he'
  obtain ⟨s, -, rfl⟩ := Option.map_eq_some_iff.mp he
  obtain ⟨s', -, rfl⟩ := Option.map_eq_some_iff.mp he'
  exact hNe

/-- Edges share an id only by an arrow within the ids of their ends. -/
def Graph.TellsEdgesApart (graph : Graph α) : Prop :=
  (graph.edges.map Edge.id).Nodup ↔ ∀ e ∈ graph.edges, ∀ e' ∈ graph.edges, ¬ e.Shifted e'

theorem described_tellsEdgesApart (policy : Policy) (outer : Option String) (t : Tree) :
    (Graph.described policy outer t : Graph α).TellsEdgesApart := by
  constructor
  · intro hNodup e he e' he' hShifted
    obtain ⟨p, -, hEdge⟩ := exists_of_mem_edges_described he
    obtain ⟨q, -, hEdge'⟩ := exists_of_mem_edges_described he'
    have hId : e.id = e'.id := by
      rw [hEdge, hEdge'] at hShifted ⊢
      exact Edge.between_id_eq_iff.mpr (Or.inr (Or.inl hShifted))
    exact hShifted.ne (congrArg Edge.source (List.inj_on_of_nodup_map hNodup he he' hId))
  · intro hNone
    rw [List.Nodup, List.pairwise_map]
    refine (pairwise_target_ne_described policy outer t).imp_of_mem ?_
    intro e e' he he' hTarget hId
    obtain ⟨p, -, hEdge⟩ := exists_of_mem_edges_described he
    obtain ⟨q, -, hEdge'⟩ := exists_of_mem_edges_described he'
    rw [hEdge, hEdge'] at hId
    rcases Edge.between_id_eq_iff.mp hId with ⟨-, hSame⟩ | hShifted | hShifted
    · rw [hEdge, hEdge'] at hTarget
      exact hTarget hSame
    · rw [← hEdge, ← hEdge'] at hShifted
      exact hNone e he e' he' hShifted
    · rw [← hEdge, ← hEdge'] at hShifted
      exact hNone e' he' e he hShifted

theorem nodup_edge_ids_described (outer : Option String)
    (hPlain : ∀ p ∈ t.emitted policy, ¬ HasArrow p.value.tag) :
    ((Graph.described policy outer t : Graph α).edges.map Edge.id).Nodup := by
  refine (described_tellsEdgesApart policy outer t).mpr ?_
  rintro e he e' - ⟨m, -, hTarget⟩
  obtain ⟨p, hp, hEdge⟩ := exists_of_mem_edges_described he
  rw [hEdge] at hTarget
  exact hPlain p hp (hasArrow_of_idOf_eq hTarget)

/-- The ids of the edges of a built graph differ unless an arrow within the id of a node lets two of
them be read alike, which takes a kind with an arrow in it. -/
theorem built_tellsEdgesApart (policy : Policy) (t : Tree) :
    (Graph.build policy t : Graph α).TellsEdgesApart ∧
      (∀ parent, (Graph.buildUnder policy parent t : Graph α).TellsEdgesApart) ∧
      ((∀ p ∈ t.emitted policy, ¬ HasArrow p.value.tag) →
        ((Graph.build policy t : Graph α).edges.map Edge.id).Nodup ∧
        ∀ parent, ((Graph.buildUnder policy parent t : Graph α).edges.map Edge.id).Nodup) := by
  have hBuild : Graph.build policy t = (Graph.described policy none t : Graph α) :=
    visit_graph_eq_described policy none t
  have hUnder : ∀ parent, Graph.buildUnder policy parent t =
      (Graph.described policy (some parent) t : Graph α) :=
    fun parent => visit_graph_eq_described policy (some parent) t
  simp only [hBuild, hUnder]
  refine ⟨described_tellsEdgesApart policy none t, ?_, ?_⟩
  · exact fun parent => described_tellsEdgesApart policy (some parent) t
  · intro hPlain
    exact ⟨nodup_edge_ids_described none hPlain,
      fun parent => nodup_edge_ids_described (some parent) hPlain⟩

/-- The edge to the first child and the edge below the second one have the same joined id. -/
def arrowKinds : Json.Value :=
  .object [("type", .string "a"),
    ("first", .object [("type", .string "b_1->c")]),
    ("second", .object [("type", .string "a_1->b"), ("child", .object [("type", .string "c")])])]

theorem colliding_edge_ids :
    ¬ ((Graph.build .emit (Tree.ofJson arrowKinds) : Graph Float).edges.map Edge.id).Nodup := by
  decide +kernel

end SyntaxDrawing
