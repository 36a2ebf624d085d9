import SyntaxDrawing.Proofs.Graph.Recursion
import SyntaxDrawing.Proofs.Graph.RootedTree
import SyntaxDrawing.Proofs.Layout.ShortestPaths

/-!
# From the text to the depth of the drawing

A layout succeeds if the document has one top, and its depth is the deepest level of a node. So what
the depth pass counts in a text bounds every level and every recursion, embedded documents apart.
-/

namespace SyntaxDrawing

open Coordinate Json Layout

variable {α : Type} [Coordinate α] {policy : Policy} {t : Tree} {g : Geometry α}
  {summary : Summary α} {placed : List (Node α)}

theorem exists_top_of_arrange (h : arrange g (Graph.described policy none t).nodes
    (Graph.described policy none t : Graph α).edges = .ok (summary, placed)) :
    ∃ p, t.tops policy = [p] := by
  obtain ⟨tree, hTree, -, -⟩ := arrange_eq_ok_iff.mp h
  have hTops : (Graph.described policy none t : Graph α).tops.length = 1 := by
    rw [Graph.tops_eq_map_roots (nodup_ids_described policy t) (ends_described policy t),
      List.length_map]
    exact exists_tree_iff.mp ⟨tree, hTree⟩
  rw [tops_described, List.length_map] at hTops
  exact List.length_eq_one_iff.mp hTops

/-- The depth of a layout is the level of a deepest node. -/
theorem isGreatest_level_of_arrange (h : arrange g (Graph.described policy none t).nodes
    (Graph.described policy none t : Graph α).edges = .ok (summary, placed)) :
    IsGreatest {d | ∃ p ∈ t.emitted policy, p.level policy = d} summary.depth := by
  obtain ⟨top, hTop⟩ := exists_top_of_arrange h
  obtain ⟨tree, hTree, -, hAll, hVisits⟩ :=
    (described_rootedTree (α := α) hTop).exists_tree
  obtain ⟨_, hSame, rfl, -⟩ := arrange_eq_ok_iff.mp h
  cases hSame.symm.trans hTree
  have hUnique {id : String} {j k : Nat}
      (hj : (Graph.described policy none t : Graph α).AtDepth id j)
      (hk : (Graph.described policy none t : Graph α).AtDepth id k) : j = k :=
    hj.unique (nodup_targets_described policy t) hk
  -- Levels and depths of visits are both depths in the graph, where an id has only one.
  have hLevels : {d | ∃ p ∈ t.emitted policy, p.level policy = d} =
      {d | ∃ v ∈ tree.visits, v.depth = d} := by
    ext d
    constructor
    · rintro ⟨p, hp, rfl⟩
      have hNode : nodeAt α policy t p ∈ (Graph.described policy none t : Graph α).nodes :=
        List.mem_map_of_mem hp
      obtain ⟨i, hi⟩ := List.get_of_mem hNode
      obtain ⟨v, hv, rfl⟩ := List.mem_map.mp (hAll i)
      have hDepth := (hVisits v hv).1
      rw [hi] at hDepth
      exact ⟨v, hv, hUnique hDepth (atDepth_described hp)⟩
    · rintro ⟨v, hv, rfl⟩
      obtain ⟨p, hp, hNode⟩ := List.mem_map.mp
        (List.get_mem (Graph.described policy none t : Graph α).nodes v.node)
      have hDepth := (hVisits v hv).1
      rw [← hNode] at hDepth
      exact ⟨p, hp, hUnique (atDepth_described hp) hDepth⟩
  rw [hLevels]
  exact isGreatest_depth (SpanningTree.levelOrder hTree)

/-- What a bound on the nesting of a value bounds: the level of every node, the depth of every
layout, and the room that the recursions need. -/
structure BoundedBy (α : Type) [Coordinate α] (v : Value) (bound : Nat) : Prop where
  level_le : ∀ policy, ∀ node ∈ (Graph.build policy (Tree.ofJson v) : Graph α).nodes,
    ∃ p ∈ (Tree.ofJson v).emitted policy, node = nodeAt α policy (Tree.ofJson v) p ∧
      p.level policy ≤ max bound 1 - 1
  depth_le : ∀ policy (g : Geometry α) summary placed,
    arrange g (Graph.build policy (Tree.ofJson v)).nodes
      (Graph.build policy (Tree.ofJson v) : Graph α).edges = .ok (summary, placed) →
    summary.depth ≤ max bound 1 - 1
  ofJson_eq : ∀ room, bound < room → Tree.ofJsonWithin room v = some (Tree.ofJson v)
  toJson_eq : ∀ room, bound < room →
    Tree.toJsonWithin room (Tree.ofJson v) = some (Tree.ofJson v).toJson
  visit_eq : ∀ policy room, bound < room → ∀ parent (d : Draft α),
    Draft.visitWithin policy room parent d (Tree.ofJson v) =
      some (Draft.visit policy parent d (Tree.ofJson v))

theorem boundedBy_of_nesting_le {v : Value} {bound : Nat} (h : v.nesting ≤ bound) :
    BoundedBy α v bound := by
  have hLevel {policy : Policy} {p : Occurrence} (hp : p ∈ (Tree.ofJson v).emitted policy) :
      p.level policy ≤ max bound 1 - 1 := by
    have hLe := level_le_of_emitted hp
    omega
  constructor
  · intro policy node hNode
    rw [build_eq_described] at hNode
    obtain ⟨p, hp, rfl⟩ := List.mem_map.mp hNode
    exact ⟨p, hp, rfl, hLevel hp⟩
  · intro policy g summary placed hArrange
    rw [build_eq_described] at hArrange
    obtain ⟨⟨p, hp, hDepth⟩, -⟩ := isGreatest_level_of_arrange hArrange
    exact hDepth ▸ hLevel hp
  · intro room hRoom
    exact ofJsonWithin_eq (by omega)
  · intro room hRoom
    exact toJsonWithin_eq (by omega)
  · intro policy room hRoom
    exact visitWithin_eq policy (by omega)

/-- What the depth pass counts in a text bounds the levels of the drawing and the depth of every
recursion on the way there, up to `embeddedLevels` for each embedded document that is open. If
nothing is skipped, lifted out or lost to a key that comes again, a drawing is as deep as that. -/
theorem nestingDepth_bounds_drawing (α : Type) [Coordinate α] {text : List UInt8} {v : Value}
    (h : readDocument text = .ok v) :
    (∀ k, (∀ s, Reached text s → s.embeddings ≤ k) →
      BoundedBy α v (nestingDepth text + embeddedLevels * k)) ∧
    ((∀ s, Reached text s → s.embeddings = 0) → BoundedBy α v (nestingDepth text) ∧
      ∀ policy (g : Geometry α) summary placed,
        arrange g (Graph.build policy (Tree.ofJson v)).nodes
          (Graph.build policy (Tree.ofJson v) : Graph α).edges = .ok (summary, placed) →
        summary.depth ≤ levelLimit - 1) ∧
    (IsFaithful text → HasNoSpan v → ∀ g : Geometry α, ∃ summary placed,
      arrange g (Graph.build .emit (Tree.ofJson v)).nodes
        (Graph.build .emit (Tree.ofJson v) : Graph α).edges = .ok (summary, placed) ∧
      summary.depth = max (nestingDepth text) 1 - 1) := by
  obtain ⟨hLimit, hRead⟩ := readDocument_eq_ok_iff.mp h
  have hBounded : ∀ k, (∀ s, Reached text s → s.embeddings ≤ k) →
      BoundedBy α v (nestingDepth text + embeddedLevels * k) := by
    intro k hk
    refine boundedBy_of_nesting_le (nesting_of_readDocument h fun s hs => ?_)
    exact Nat.le_trans hs.depth_le (Nat.add_le_add_left (Nat.mul_le_mul_left _ (hk s hs)) _)
  refine ⟨hBounded, ?_, ?_⟩
  · intro hNone
    have hPlain := hBounded 0 fun s hs => Nat.le_of_eq (hNone s hs)
    refine ⟨hPlain, ?_⟩
    intro policy g summary placed hArrange
    have hDepth := hPlain.depth_le policy g summary placed hArrange
    have hOne : 1 ≤ levelLimit := by decide
    omega
  · intro hFaithful hSpan g
    rw [build_eq_described]
    obtain ⟨summary, placed, hArrange, -⟩ :=
      (described_rootedTree (α := α) (Tree.tops_emit (Tree.ofJson v))).arrange g
    refine ⟨summary, placed, hArrange, ?_⟩
    rw [← nesting_of_isFaithful h hFaithful]
    exact (isGreatest_level_of_arrange hArrange).unique (isGreatest_level_of_read hRead hSpan)

theorem readDocument_nestedArrays :
    readDocument (Text.Utf8.encode "[[]]") = .ok (.array [.array []]) := by
  have hOuter : skipBlank (Text.Utf8.encode "[[]]") = byte '[' :: Text.Utf8.encode "[]]" := by
    decide +kernel
  have hInner : skipBlank (Text.Utf8.encode "[]]") = byte '[' :: Text.Utf8.encode "]]" := by
    decide +kernel
  have hClose : skipBlank (Text.Utf8.encode "]]") = byte ']' :: Text.Utf8.encode "]" := by
    decide +kernel
  have hClose' : skipBlank (Text.Utf8.encode "]") = byte ']' :: [] := by decide +kernel
  refine readDocument_eq_ok_iff.mpr ⟨by decide +kernel, ?_⟩
  rw [Json.read, (Moves.within (.openArray rfl hOuter rfl hInner (by decide))).run_eq,
    (Moves.within (.emptyArray rfl hInner rfl hClose)).run_eq,
    (Moves.within (.closeArray rfl rfl hClose')).run_eq, (Moves.finish rfl rfl rfl).run_eq_ok]
  rfl

theorem nestingDepth_bounds_nestedArrays :
    let text := Text.Utf8.encode "[[]]"
    let t := Tree.ofJson (.array [.array []])
    (∀ s, Reached text s → s.embeddings = 0) ∧ IsFaithful text ∧ HasNoSpan (.array [.array []]) ∧
      BoundedBy ℚ (.array [.array []]) (nestingDepth text) ∧
      ∃ summary placed, arrange (.standard : Geometry ℚ) (Graph.build .emit t).nodes
        (Graph.build .emit t : Graph ℚ).edges = .ok (summary, placed) ∧
      summary.depth = max (nestingDepth text) 1 - 1 := by
  intro text t
  have hFaithful : IsFaithful text := isFaithful_of_no_quote (by decide +kernel)
  have hSpan : HasNoSpan (.array [.array []]) := by
    intro p hp
    rw [← Occurrence.mem_within_iff, Tree.ofJson_array] at hp
    simp only [Occurrence.within_eq, Occurrence.inner, Occurrence.top, Tree.ofJson_array,
      Tree.children, List.map_cons, List.map_nil, List.zipIdx_cons, List.zipIdx_nil,
      List.flatMap_cons, List.flatMap_nil, List.append_nil, List.mem_cons, List.not_mem_nil,
      or_false] at hp
    rcases hp with rfl | rfl <;> rfl
  have hNone : ∀ s, Reached text s → s.embeddings = 0 := fun s hs => (hFaithful s hs).1
  obtain ⟨-, hPlain, hDeep⟩ := nestingDepth_bounds_drawing ℚ readDocument_nestedArrays
  exact ⟨hNone, hFaithful, hSpan, (hPlain hNone).1, hDeep hFaithful hSpan .standard⟩

/-- The object in the string becomes a node one level down, where the depth pass counts the outer
object alone. -/
theorem level_of_embeddedObject :
    let text := Text.Utf8.encode "\x7b\"$serde_json::private::RawValue\":\"[\x7b\x7d]\"\x7d"
    readDocument text = .ok (.array [.object []]) ∧
      ∃ p ∈ (Tree.ofJson (.array [.object []])).emitted .emit,
        max (nestingDepth text) 1 - 1 < p.level .emit := by
  intro text
  have hOpened : skipBlank text =
      byte '\x7b' :: Text.Utf8.encode "\"$serde_json::private::RawValue\":\"[\x7b\x7d]\"\x7d" := by
    decide +kernel
  have hKey : Key (Text.Utf8.encode "\"$serde_json::private::RawValue\":\"[\x7b\x7d]\"\x7d")
      embeddedKey (Text.Utf8.encode "\"[\x7b\x7d]\"\x7d") := by
    have hText : readText
        (Text.Utf8.encode "$serde_json::private::RawValue\":\"[\x7b\x7d]\"\x7d") =
        .ok (embeddedKey, Text.Utf8.encode ":\"[\x7b\x7d]\"\x7d") :=
      readText_eq_ok_iff.2 ⟨_, .of_plain (by decide +kernel), by decide +kernel⟩
    exact ⟨by decide +kernel, hText, by decide +kernel⟩
  have hQuote : skipBlank (Text.Utf8.encode "\"[\x7b\x7d]\"\x7d") =
      byte '"' :: Text.Utf8.encode "[\x7b\x7d]\"\x7d" := by
    decide +kernel
  have hContent : readText (Text.Utf8.encode "[\x7b\x7d]\"\x7d") =
      .ok ("[\x7b\x7d]", Text.Utf8.encode "\x7d") :=
    readText_eq_ok_iff.2 ⟨_, .of_plain (by decide +kernel), by decide +kernel⟩
  have hOuter : skipBlank (Text.Utf8.encode "[\x7b\x7d]") =
      byte '[' :: Text.Utf8.encode "\x7b\x7d]" := by
    decide +kernel
  have hInner : skipBlank (Text.Utf8.encode "\x7b\x7d]") =
      byte '\x7b' :: Text.Utf8.encode "\x7d]" := by
    decide +kernel
  have hClose : skipBlank (Text.Utf8.encode "\x7d]") = byte '\x7d' :: Text.Utf8.encode "]" := by
    decide +kernel
  have hClose' : skipBlank (Text.Utf8.encode "]") = byte ']' :: [] := by decide +kernel
  have hLeave : skipBlank (Text.Utf8.encode "\x7d") = byte '\x7d' :: [] := by decide +kernel
  constructor
  · refine readDocument_eq_ok_iff.mpr ⟨by decide +kernel, ?_⟩
    rw [Json.read, (Moves.enter rfl hOpened rfl hKey hQuote hContent).run_eq,
      (Moves.within (.openArray rfl hOuter rfl hInner (by decide))).run_eq,
      (Moves.within (.emptyObject rfl hInner rfl hClose)).run_eq,
      (Moves.within (.closeArray rfl rfl hClose')).run_eq, (Moves.leave rfl rfl rfl hLeave).run_eq,
      (Moves.finish rfl rfl rfl).run_eq_ok]
    rfl
  · refine ⟨(Occurrence.top (Tree.ofJson (.array [.object []]))).child 0 (.mapping []), ?_, ?_⟩
    · exact Tree.mem_emitted_iff.mpr ⟨.child .self rfl, rfl⟩
    · decide +kernel

end SyntaxDrawing
