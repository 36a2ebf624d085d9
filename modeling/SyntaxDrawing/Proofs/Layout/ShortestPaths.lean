import SyntaxDrawing.Proofs.Layout.Links
import SyntaxDrawing.Proofs.Layout.Separation
import Mathlib.Data.Set.Card
import Mathlib.Logic.Relation
import Mathlib.Order.CompletePartialOrder

/-!
# The tree of a layout is breadth first

A walk takes finitely many steps, whatever the edges are. It visits what the root reaches, each node
at the length of a shortest path, and leaves it to the first node with an edge to it. Every node
keeps its children in the order of their first edges.
-/

namespace SyntaxDrawing.Layout

open Relation

variable {n : Nat} {children : Fin n → List (Fin n)} {root : Fin n}

namespace Walk

inductive Step (children : Fin n → List (Fin n)) : Walk n → Walk n → Prop
  | visit {w : Walk n} {v : Fin n} {level : List (Fin n)} (h : w.level = v :: level) :
      Step children w (w.visit children v level)
  | descend {w : Walk n} (hl : w.level = []) (hn : w.next ≠ []) : Step children w w.descend

theorem Step.pending_lt {w w' : Walk n} (h : Step children w w') : w'.pending < w.pending := by
  cases h with
  | visit h => exact pending_visit children h
  | descend hl hn => exact pending_descend hl hn

/-- No walk goes on for ever. -/
theorem acc_step (children : Fin n → List (Fin n)) (w : Walk n) :
    Acc (fun later earlier => Step children earlier later) w :=
  Subrelation.accessible (fun h => h.pending_lt)
    (InvImage.accessible pending (Nat.lt_wfRel.wf.apply _))

/-- Where a walk ends no step is left, and the visits made are those that are listed. -/
theorem exists_last (children : Fin n → List (Fin n)) (w : Walk n) :
    ∃ last, ReflTransGen (Step children) w last ∧ (∀ w', ¬ Step children last w') ∧
      w.finish children = last.visits.reverse := by
  fun_induction finish children w with
  | case1 w v level hl ih =>
    obtain ⟨last, hSteps, hEnd⟩ := ih
    exact ⟨last, hSteps.head (.visit hl), hEnd⟩
  | case2 w hl hn =>
    refine ⟨w, .refl, ?_, rfl⟩
    intro w' hStep
    cases hStep with
    | visit h => exact List.cons_ne_nil _ _ (h.symm.trans hl)
    | descend _ hNext => exact hNext hn
  | case3 w hl hn ih =>
    obtain ⟨last, hSteps, hEnd⟩ := ih
    exact ⟨last, hSteps.head (.descend hl hn), hEnd⟩

theorem Invariant.step {w w' : Walk n} (hw : w.Invariant children root)
    (h : Step children w w') : w'.Invariant children root := by
  cases h with
  | visit h => exact hw.visit h
  | descend hl _ => exact hw.descend hl

end Walk

/-- In a list, `c` stands before all places of `d`. -/
def Ahead {β : Type} (xs : List β) (c d : β) : Prop :=
  ∃ before after, xs = before ++ c :: after ∧ d ∉ before

theorem Ahead.cons {β : Type} {xs : List β} {c d : β} (h : Ahead xs c d) {x : β} (hx : d ≠ x) :
    Ahead (x :: xs) c d := by
  obtain ⟨before, after, rfl, hd⟩ := h
  exact ⟨x :: before, after, rfl, List.not_mem_cons_of_ne_of_not_mem hx hd⟩

/-- Nodes are claimed in the order of their first places. -/
theorem claim_ahead (seen : Vector Bool n) (claimed nodes : List (Fin n)) :
    ∃ fresh, (claim seen claimed nodes).1 = claimed.reverse ++ fresh ∧
      (∀ c ∈ fresh, seen.get c = false) ∧ fresh.Pairwise (Ahead nodes) := by
  fun_induction claim seen claimed nodes with
  | case1 seen claimed => exact ⟨[], by simp, by simp, .nil⟩
  | case2 seen claimed c rest hc ih =>
    obtain ⟨fresh, hList, hNew, hOrder⟩ := ih
    refine ⟨fresh, hList, hNew, hOrder.imp_of_mem ?_⟩
    intro a b _ hb hAhead
    apply hAhead.cons
    rintro rfl
    rw [hNew b hb] at hc
    cases hc
  | case3 seen claimed c rest hc ih =>
    obtain ⟨fresh, hList, hNew, hOrder⟩ := ih
    have hOther : ∀ d ∈ fresh, d ≠ c ∧ seen.get d = false := by
      intro d hd
      have hFalse := hNew d hd
      rw [get_put] at hFalse
      split at hFalse
      · cases hFalse
      · next hne => exact ⟨Ne.symm hne, hFalse⟩
    refine ⟨c :: fresh, by rw [hList, List.reverse_cons, List.append_assoc]; rfl, ?_, ?_⟩
    · rintro d (_ | ⟨_, hd⟩)
      · simpa using hc
      · exact (hOther d hd).2
    · rw [List.pairwise_cons]
      refine ⟨fun d _ => ⟨[], rest, rfl, List.not_mem_nil⟩, hOrder.imp_of_mem ?_⟩
      intro a b _ hb hAhead
      exact hAhead.cons (hOther b hb).1

structure Walk.Ordered (children : Fin n → List (Fin n)) (w : Walk n) : Prop where
  ahead : ∀ v ∈ w.visits, v.kept.Pairwise (Ahead (children v.node))
  first : w.visits.Pairwise fun later earlier => ∀ c ∈ children earlier.node, c ∉ later.kept

theorem Walk.Ordered.step {w w' : Walk n} (hw : w.Ordered children)
    (hInvariant : w.Invariant children root) (h : Step children w w') : w'.Ordered children := by
  cases h with
  | descend => exact ⟨hw.ahead, hw.first⟩
  | @visit v level h =>
    obtain ⟨fresh, hList, hNew, hOrder⟩ := claim_ahead w.seen [] (children v)
    have hVisits : (w.visit children v level).visits = ⟨v, w.depth, fresh⟩ :: w.visits := by
      simp [Walk.visit, hList]
    constructor
    · rw [hVisits]
      rintro u (_ | ⟨_, hu⟩)
      · exact hOrder
      · exact hw.ahead u hu
    · rw [hVisits, List.pairwise_cons]
      refine ⟨?_, hw.first⟩
      -- What an earlier visit could have claimed has been seen.
      intro u hu c hc hMem
      have hSeen := hInvariant.closed u hu c hc
      rw [hNew c hMem] at hSeen
      cases hSeen

theorem visits_ordered (children : Fin n → List (Fin n)) (root : Fin n) :
    (∀ v ∈ visits children root, v.kept.Pairwise (Ahead (children v.node))) ∧
      (visits children root).Pairwise fun earlier later =>
        ∀ c ∈ children earlier.node, c ∉ later.kept := by
  obtain ⟨last, hSteps, -, hVisits⟩ := Walk.exists_last children (Walk.start root)
  have hLast : last.Invariant children root ∧ last.Ordered children := by
    clear hVisits
    induction hSteps with
    | refl =>
      exact ⟨Walk.start_invariant children root, by simp [Walk.start], by simp [Walk.start]⟩
    | tail _ hStep ih => exact ⟨ih.1.step hStep, ih.2.step ih.1 hStep⟩
  rw [visits, hVisits]
  refine ⟨fun v hv => hLast.2.ahead v (List.mem_reverse.mp hv), ?_⟩
  rw [List.pairwise_reverse]
  exact hLast.2.first

inductive Path (r : Fin n → Fin n → Prop) (i : Fin n) : Nat → Fin n → Prop
  | here : Path r i 0 i
  | step {k : Nat} {j l : Fin n} (h : Path r i k j) (hr : r j l) : Path r i (k + 1) l

theorem Path.reaches {r : Fin n → Fin n → Prop} {i j : Fin n} {k : Nat} (h : Path r i k j) :
    ReflTransGen r i j := by
  induction h with
  | here => exact .refl
  | step _ hr ih => exact ih.tail hr

theorem visited_iff_reaches (children : Fin n → List (Fin n)) (root i : Fin n) :
    i ∈ (visits children root).map Visit.node ↔
      ReflTransGen (fun i j => j ∈ children i) root i := by
  have hOrder := visits_levelOrder children root
  constructor
  · intro hi
    obtain ⟨v, hv, rfl⟩ := List.mem_map.mp hi
    refine hOrder.induction
      (P := fun v => ReflTransGen (fun i j => j ∈ children i) root v.node) ?_ ?_ v hv
    · rintro u _ hNode _
      rw [hNode]
    · intro u hu hReach w _ hKept _
      exact hReach.tail ((visits_offspring children root hu).1.subset hKept)
  · intro hReach
    induction hReach with
    | refl =>
      obtain ⟨v, hv, hNode, -⟩ := hOrder.exists_root_visit
      exact List.mem_map.mpr ⟨v, hv, hNode⟩
    | tail _ hChild ih =>
      obtain ⟨v, hv, rfl⟩ := List.mem_map.mp ih
      obtain ⟨u, hu, rfl⟩ := (visits_offspring children root hv).2 _ hChild
      exact List.mem_map_of_mem hu

/-- A child of a visit is at most one level down: the visit or one before it keeps the child. -/
theorem depth_le_succ {u v : Visit n} (hu : u ∈ visits children root)
    (hv : v ∈ visits children root) (hChild : v.node ∈ children u.node) :
    v.depth ≤ u.depth + 1 := by
  have hOrder := visits_levelOrder children root
  rcases hOrder.root_or_child hv with ⟨-, hZero⟩ | ⟨w, hw, hKept, hSucc⟩
  · omega
  · obtain ⟨before, after, hSplit⟩ := List.append_of_mem hu
    have hSorted := hOrder.sorted
    have hFirst := (visits_ordered children root).2
    rw [hSplit, List.pairwise_append, List.pairwise_cons] at hSorted hFirst
    rw [hSplit] at hw
    rcases List.mem_append.mp hw with hBefore | hRest
    · have hLe := hSorted.2.2 w hBefore u List.mem_cons_self
      omega
    · rcases List.mem_cons.mp hRest with rfl | hAfter
      · omega
      · exact absurd hKept (hFirst.2.1.1 w hAfter _ hChild)

theorem depth_le_of_path {k : Nat} {i : Fin n} (h : Path (fun i j => j ∈ children i) root k i) :
    ∀ u ∈ visits children root, u.node = i → u.depth ≤ k := by
  have hOrder := visits_levelOrder children root
  induction h with
  | here =>
    intro u hu hNode
    obtain ⟨w, hw, hRoot, hZero⟩ := hOrder.exists_root_visit
    rw [← hOrder.visit_eq hw hu (hRoot.trans hNode.symm)]
    omega
  | @step k j l hPath hChild ih =>
    rintro u hu rfl
    obtain ⟨w, hw, rfl⟩ := List.mem_map.mp ((visited_iff_reaches children root j).mpr hPath.reaches)
    have hBefore := ih w hw rfl
    have hDown := depth_le_succ hw hu hChild
    omega

theorem isLeast_depth {v : Visit n} (hv : v ∈ visits children root) :
    IsLeast {k | Path (fun i j => j ∈ children i) root k v.node} v.depth := by
  have hOrder := visits_levelOrder children root
  refine ⟨?_, fun k hPath => depth_le_of_path hPath v hv rfl⟩
  refine hOrder.induction
    (P := fun v => Path (fun i j => j ∈ children i) root v.depth v.node) ?_ ?_ v hv
  · rintro u _ hNode hDepth
    rw [hNode, hDepth]
    exact .here
  · intro u hu hPath w _ hKept hDepth
    rw [hDepth]
    exact hPath.step ((visits_offspring children root hu).1.subset hKept)

/-- A visited node below the root is kept once, by the first visit that has it for a child. -/
theorem exists_first_parent {u : Visit n} (hu : u ∈ visits children root) (hne : u.node ≠ root) :
    ∃ before v after, visits children root = before ++ v :: after ∧ v.kept.count u.node = 1 ∧
      (∀ w ∈ before ++ after, u.node ∉ w.kept) ∧ u.node ∈ children v.node ∧
      (∀ w ∈ before, u.node ∉ children w.node) ∧ u.depth = v.depth + 1 := by
  have hOrder := visits_levelOrder children root
  rcases hOrder.root_or_child hu with ⟨hNode, -⟩ | ⟨v, hv, hKept, hSucc⟩
  · exact absurd hNode hne
  · obtain ⟨before, after, hSplit⟩ := List.append_of_mem hv
    have hNodup := hOrder.nodup_kept
    rw [List.nodup_flatMap] at hNodup
    have hOthers := hNodup.2
    have hFirst := (visits_ordered children root).2
    rw [hSplit, List.pairwise_append, List.pairwise_cons] at hOthers hFirst
    refine ⟨before, v, after, hSplit, List.count_eq_one_of_mem (hNodup.1 v hv) hKept, ?_,
      (visits_offspring children root hv).1.subset hKept, ?_, hSucc⟩
    · intro w hw hMem
      rcases List.mem_append.mp hw with hBefore | hAfter
      · exact hOthers.2.2 w hBefore v List.mem_cons_self hMem hKept
      · exact hOthers.2.1.1 w hAfter hKept hMem
    · intro w hw hChild
      exact hFirst.2.2 w hw v List.mem_cons_self _ hChild hKept

section

variable (ids : Vector String n)

/-- The node that an id stands for: the last one that has it. -/
def Holder (s : String) (i : Fin n) : Prop :=
  ids.get i = s ∧ ∀ j, i < j → ids.get j ≠ s

def Joins (i j : Fin n) (e : Edge) : Prop :=
  Holder ids e.source i ∧ Holder ids e.target j

def Joined (edges : List Edge) (i j : Fin n) : Prop :=
  ∃ e ∈ edges, Joins ids i j e

/-- The first edge from `i` to `c` stands before all edges from `i` to `d`. -/
def JoinedAhead (edges : List Edge) (i c d : Fin n) : Prop :=
  ∃ before e after, edges = before ++ e :: after ∧ Joins ids i c e ∧
    ∀ e' ∈ before, ¬ Joins ids i d e'

end

variable {ids : Vector String n} {edges : List Edge}

theorem targetFrom?_eq_some_iff {i j : Fin n} {e : Edge} :
    targetFrom? ids i e = some j ↔ Joins ids i j e := by
  rw [targetFrom?, Joins, Holder, Holder, ← getElem?_lastHolders_eq_some_iff,
    ← getElem?_lastHolders_eq_some_iff]
  split
  · next h => simp [h]
  · next h => simp [h]

theorem mem_children_iff {i j : Fin n} :
    j ∈ (childTable (resolve ids edges)).get i ↔ Joined ids edges i j := by
  simp only [get_childTable_resolve, List.mem_filterMap, targetFrom?_eq_some_iff, Joined]

theorem exists_first_of_filterMap {β γ : Type} {f : β → Option γ} {xs : List β} {c d : γ}
    (h : Ahead (xs.filterMap f) c d) :
    ∃ before x after, xs = before ++ x :: after ∧ f x = some c ∧ ∀ y ∈ before, f y ≠ some d := by
  induction xs with
  | nil =>
    obtain ⟨before, after, hSplit, -⟩ := h
    exact absurd hSplit.symm (by simp)
  | cons x xs ih =>
    have hLater : f x ≠ some d → Ahead (xs.filterMap f) c d → ∃ before y after,
        x :: xs = before ++ y :: after ∧ f y = some c ∧ ∀ z ∈ before, f z ≠ some d := by
      intro hx hRest
      obtain ⟨before, y, after, rfl, hy, hBefore⟩ := ih hRest
      exact ⟨x :: before, y, after, rfl, hy, List.forall_mem_cons.mpr ⟨hx, hBefore⟩⟩
    cases hx : f x with
    | none =>
      rw [List.filterMap_cons_none hx] at h
      exact hLater (by simp [hx]) h
    | some b =>
      rw [List.filterMap_cons_some hx] at h
      obtain ⟨before, after, hSplit, hd⟩ := h
      rcases List.cons_eq_append_iff.mp hSplit with ⟨-, hHere⟩ | ⟨before', rfl, hRest⟩
      · cases hHere
        exact ⟨[], x, xs, rfl, hx, by simp⟩
      · rw [List.mem_cons, not_or] at hd
        refine hLater ?_ ⟨before', after, hRest, hd.2⟩
        rw [hx, Ne, Option.some.injEq]
        exact Ne.symm hd.1

theorem joinedAhead_of_ahead {i c d : Fin n}
    (h : Ahead ((childTable (resolve ids edges)).get i) c d) : JoinedAhead ids edges i c d := by
  rw [get_childTable_resolve] at h
  obtain ⟨before, e, after, hSplit, he, hBefore⟩ := exists_first_of_filterMap h
  refine ⟨before, e, after, hSplit, targetFrom?_eq_some_iff.mp he, ?_⟩
  intro e' he' hJoins
  exact hBefore e' he' (targetFrom?_eq_some_iff.mpr hJoins)

/-- A breadth-first spanning tree of what the edges join to the root. -/
structure BreadthFirst (ids : Vector String n) (edges : List Edge) (tree : SpanningTree n) :
    Prop where
  root_iff : ∀ i, i = tree.root ↔ ∀ j, ¬ Joined ids edges j i
  head : (tree.visits.map Visit.node).head? = some tree.root
  nodup : (tree.visits.map Visit.node).Nodup
  visited_iff : ∀ i, i ∈ tree.visits.map Visit.node ↔
    ReflTransGen (Joined ids edges) tree.root i
  shortest : ∀ v ∈ tree.visits, IsLeast {k | Path (Joined ids edges) tree.root k v.node} v.depth
  sorted : tree.visits.Pairwise fun u v => u.depth ≤ v.depth
  parent : ∀ u ∈ tree.visits, u.node ≠ tree.root → ∃ before v after,
    tree.visits = before ++ v :: after ∧ v.kept.count u.node = 1 ∧
      (∀ w ∈ before ++ after, u.node ∉ w.kept) ∧ Joined ids edges v.node u.node ∧
      (∀ w ∈ before, ¬ Joined ids edges w.node u.node) ∧ u.depth = v.depth + 1
  kept : ∀ v ∈ tree.visits, ∀ c ∈ v.kept, c ≠ tree.root ∧ c ∈ tree.visits.map Visit.node
  ordered : ∀ v ∈ tree.visits, v.kept.Pairwise (JoinedAhead ids edges v.node)

theorem SpanningTree.breadthFirst {tree : SpanningTree n} (h : spanningTree ids edges = .ok tree) :
    BreadthFirst ids edges tree := by
  obtain ⟨hRoot, hVisits⟩ := spanningTree_eq_ok_iff.mp h
  have hOrder := SpanningTree.levelOrder h
  have hJoined : (fun i j => j ∈ (childTable (resolve ids edges)).get i) = Joined ids edges :=
    funext fun _ => funext fun _ => propext mem_children_iff
  refine ⟨?_, ?_, hOrder.nodup, ?_, ?_, hOrder.sorted, ?_, ?_, ?_⟩
  · intro i
    rw [← List.mem_singleton, ← hRoot, mem_roots_iff_children]
    simp only [mem_children_iff]
  · rw [hOrder.nodes_eq]
    rfl
  · intro i
    rw [hVisits, visited_iff_reaches, hJoined]
  · intro v hv
    rw [hVisits] at hv
    rw [← hJoined]
    exact isLeast_depth hv
  · intro u hu hne
    rw [hVisits] at hu ⊢
    obtain ⟨before, v, after, hSplit, hOnce, hOthers, hChild, hFirst, hSucc⟩ :=
      exists_first_parent hu hne
    refine ⟨before, v, after, hSplit, hOnce, hOthers, mem_children_iff.mp hChild, ?_, hSucc⟩
    intro w hw hBefore
    exact hFirst w hw (mem_children_iff.mpr hBefore)
  · intro v hv c hc
    obtain ⟨u, hu, rfl, -⟩ := hOrder.exists_child_visit hv hc
    refine ⟨?_, List.mem_map_of_mem hu⟩
    intro hNode
    exact hOrder.root_notMem_kept hv (hNode ▸ hc)
  · intro v hv
    rw [hVisits] at hv
    exact ((visits_ordered _ tree.root).1 v hv).imp joinedAhead_of_ahead

theorem BreadthFirst.length_eq {tree : SpanningTree n} (h : BreadthFirst ids edges tree) :
    tree.visits.length = {i | ReflTransGen (Joined ids edges) tree.root i}.ncard := by
  have hSet : {i | ReflTransGen (Joined ids edges) tree.root i} =
      ((tree.visits.map Visit.node).toFinset : Set (Fin n)) := by
    ext i
    rw [Set.mem_ofPred_eq, ← h.visited_iff, Finset.mem_coe, List.mem_toFinset]
  rw [hSet, Set.ncard_coe_finset, List.toFinset_card_of_nodup h.nodup, List.length_map]

theorem foldl_max_depth (visits : List (Visit n)) (d : Nat) :
    (∀ v ∈ visits, v.depth ≤ visits.foldl (fun deepest v => max deepest v.depth) d) ∧
      d ≤ visits.foldl (fun deepest v => max deepest v.depth) d ∧
      (visits.foldl (fun deepest v => max deepest v.depth) d = d ∨
        ∃ v ∈ visits, v.depth = visits.foldl (fun deepest v => max deepest v.depth) d) := by
  induction visits generalizing d with
  | nil => simp
  | cons u rest ih =>
    obtain ⟨hAll, hStart, hSome⟩ := ih (max d u.depth)
    rw [List.foldl_cons]
    refine ⟨List.forall_mem_cons.mpr ⟨by omega, hAll⟩, by omega, ?_⟩
    rcases hSome with hMax | ⟨v, hv, hDepth⟩
    · rcases Nat.le_total u.depth d with hLe | hLe
      · left
        omega
      · exact Or.inr ⟨u, List.mem_cons_self, by omega⟩
    · exact Or.inr ⟨v, List.mem_cons_of_mem u hv, hDepth⟩

theorem isGreatest_depth {visits : List (Visit n)} (h : LevelOrder root visits) :
    IsGreatest {d | ∃ v ∈ visits, v.depth = d}
      (visits.foldl (fun deepest v => max deepest v.depth) 0) := by
  obtain ⟨hAll, -, hSome⟩ := foldl_max_depth visits 0
  constructor
  · rcases hSome with hZero | hVisit
    · obtain ⟨v, hv, -, hDepth⟩ := h.exists_root_visit
      exact ⟨v, hv, hDepth.trans hZero.symm⟩
    · exact hVisit
  · rintro d ⟨v, hv, rfl⟩
    exact hAll v hv

theorem BreadthFirst.depths_eq {tree : SpanningTree n} (h : BreadthFirst ids edges tree) :
    {d | ∃ v ∈ tree.visits, v.depth = d} =
      {d | ∃ i, IsLeast {k | Path (Joined ids edges) tree.root k i} d} := by
  ext d
  constructor
  · rintro ⟨v, hv, rfl⟩
    exact ⟨v.node, h.shortest v hv⟩
  · rintro ⟨i, hLeast⟩
    obtain ⟨v, hv, rfl⟩ := List.mem_map.mp ((h.visited_iff i).mpr hLeast.1.reaches)
    exact ⟨v, hv, (h.shortest v hv).unique hLeast⟩

/-- Whatever the edges are, the walk from any node ends, and the tree of a successful layout is the
breadth-first tree below its root. The summary counts what the root reaches and tells the distance
of what is furthest from it. -/
theorem arrange_breadthFirst {α : Type} [Coordinate α] (g : Geometry α) (nodes : List (Node α))
    (edges : List Edge) :
    let ids := nodeIds nodes
    let children := (childTable (resolve ids edges)).get
    (∀ root, Acc (fun later earlier => Walk.Step children earlier later) (.start root) ∧
      ∃ last, ReflTransGen (Walk.Step children) (.start root) last ∧
        (∀ w, ¬ Walk.Step children last w) ∧ visits children root = last.visits.reverse) ∧
    ∀ summary placed, arrange g nodes edges = .ok (summary, placed) →
      ∃ tree, spanningTree ids edges = .ok tree ∧ BreadthFirst ids edges tree ∧
        summary.nodeCount = {i | ReflTransGen (Joined ids edges) tree.root i}.ncard ∧
        IsGreatest {d | ∃ i, IsLeast {k | Path (Joined ids edges) tree.root k i} d}
          summary.depth := by
  intro ids children
  refine ⟨fun root => ⟨Walk.acc_step children _, Walk.exists_last children _⟩, ?_⟩
  intro summary placed h
  obtain ⟨tree, hTree, rfl, -⟩ := arrange_eq_ok_iff.mp h
  have hBreadth := SpanningTree.breadthFirst hTree
  refine ⟨tree, hTree, hBreadth, hBreadth.length_eq, ?_⟩
  rw [← hBreadth.depths_eq]
  exact isGreatest_depth (SpanningTree.levelOrder hTree)

/-- A repeated edge, an edge from nowhere, a loop, and cycles through nodes of several parents. -/
theorem arrange_breadthFirst_tangled : ∃ summary placed tree,
    arrange .standard (plainNodes ["a", "b", "c", "d"]) tangledEdges = .ok (summary, placed) ∧
      BreadthFirst (nodeIds (plainNodes ["a", "b", "c", "d"])) tangledEdges tree := by
  obtain ⟨tree, hTree⟩ :=
    exists_tree_iff.mpr (by decide : (roots (resolve (nodeIds (plainNodes ["a", "b", "c", "d"]))
      tangledEdges)).length = 1)
  obtain ⟨tree', -, hBreadth, -⟩ := (arrange_breadthFirst .standard
    (plainNodes ["a", "b", "c", "d"]) tangledEdges).2 _ _ (arrange_eq_of_tree hTree)
  exact ⟨_, _, tree', arrange_eq_of_tree hTree, hBreadth⟩

end SyntaxDrawing.Layout
