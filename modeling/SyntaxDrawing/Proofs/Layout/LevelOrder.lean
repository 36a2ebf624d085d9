import SyntaxDrawing.Layout.Walk
import Mathlib.Data.List.Nodup
import Mathlib.Data.List.Pairwise

/-!
# The order of a breadth-first walk

The visits of a walk stand level by level: behind the root come the children that each visit keeps,
in the order of the visits, and no node twice. `visits_levelOrder` shows this for any children,
with cycles and nodes of several parents; `visits_offspring` shows that every child of a visited
node is visited.
-/

namespace SyntaxDrawing.Layout

variable {n : Nat} {children : Fin n → List (Fin n)} {root : Fin n}

/-- The children that a node claims are those not seen before, each once. -/
structure Claim (seen : Vector Bool n) (nodes fresh : List (Fin n)) (marked : Vector Bool n) :
    Prop where
  sublist : fresh.Sublist nodes
  nodup : fresh.Nodup
  mem_iff : ∀ i, i ∈ fresh ↔ i ∈ nodes ∧ seen.get i = false
  marked_iff : ∀ i, marked.get i = true ↔ seen.get i = true ∨ i ∈ nodes

theorem claim_fresh (seen : Vector Bool n) (claimed nodes : List (Fin n)) :
    ∃ fresh, (claim seen claimed nodes).1 = claimed.reverse ++ fresh ∧
      Claim seen nodes fresh (claim seen claimed nodes).2 := by
  fun_induction claim seen claimed nodes with
  | case1 seen claimed =>
    exact ⟨[], by simp, List.Sublist.refl _, List.nodup_nil, by simp, by simp⟩
  | case2 seen claimed c rest hc ih =>
    obtain ⟨fresh, hList, h⟩ := ih
    refine ⟨fresh, hList, h.sublist.cons c, h.nodup, ?_, ?_⟩
    · intro i
      rw [h.mem_iff, List.mem_cons]
      constructor
      · rintro ⟨hi, hSeen⟩
        exact ⟨Or.inr hi, hSeen⟩
      · rintro ⟨rfl | hi, hSeen⟩
        · rw [hc] at hSeen
          cases hSeen
        · exact ⟨hi, hSeen⟩
    · intro i
      rw [h.marked_iff, List.mem_cons]
      constructor
      · exact Or.imp_right Or.inr
      · rintro (hSeen | rfl | hi)
        · exact Or.inl hSeen
        · exact Or.inl hc
        · exact Or.inr hi
  | case3 seen claimed c rest hc ih =>
    obtain ⟨fresh, hList, h⟩ := ih
    have hc : seen.get c = false := by simpa using hc
    refine ⟨c :: fresh, ?_, h.sublist.cons_cons c, ?_, ?_, ?_⟩
    · rw [hList, List.reverse_cons, List.append_assoc, List.singleton_append]
    · rw [List.nodup_cons]
      refine ⟨?_, h.nodup⟩
      intro hMem
      have hSeen := ((h.mem_iff c).mp hMem).2
      rw [get_put, if_pos rfl] at hSeen
      cases hSeen
    · intro i
      rw [List.mem_cons, List.mem_cons, h.mem_iff, get_put]
      by_cases hi : i = c
      · subst hi
        simp [hc]
      · simp [hi, Ne.symm hi]
    · intro i
      rw [List.mem_cons, h.marked_iff, get_put]
      by_cases hi : i = c
      · subst hi
        simp
      · simp [hi, Ne.symm hi]

def Visit.offspring (v : Visit n) : List (Fin n × Nat) :=
  v.kept.map fun c => (c, v.depth + 1)

def Visit.entry (v : Visit n) : Fin n × Nat :=
  (v.node, v.depth)

/-- Visits that list a tree level by level. -/
structure LevelOrder (root : Fin n) (visits : List (Visit n)) : Prop where
  queue : visits.map Visit.entry = (root, 0) :: visits.flatMap Visit.offspring
  nodup : (visits.map Visit.node).Nodup
  sorted : visits.Pairwise fun u v => u.depth ≤ v.depth

namespace Walk

def entries (w : Walk n) : List (Fin n × Nat) :=
  w.visits.reverse.map Visit.entry ++ w.level.map (·, w.depth) ++
    w.next.reverse.map (·, w.depth + 1)

/-- What every step of a walk keeps. -/
structure Invariant (children : Fin n → List (Fin n)) (root : Fin n) (w : Walk n) : Prop where
  queue : w.entries = (root, 0) :: w.visits.reverse.flatMap Visit.offspring
  nodup : (w.entries.map Prod.fst).Nodup
  sorted : w.entries.Pairwise fun a b => a.2 ≤ b.2
  seen_iff : ∀ i, w.seen.get i = true ↔ i ∈ w.entries.map Prod.fst
  sublist : ∀ v ∈ w.visits, v.kept.Sublist (children v.node)
  closed : ∀ v ∈ w.visits, ∀ c ∈ children v.node, w.seen.get c = true

theorem start_invariant (children : Fin n → List (Fin n)) (root : Fin n) :
    (start root).Invariant children root where
  queue := rfl
  nodup := List.nodup_singleton root
  sorted := List.pairwise_singleton _ _
  seen_iff i := by
    have hs : (start root).seen.get i = (put (Vector.replicate n false) root true).get i := rfl
    rw [hs, get_put]
    by_cases h : root = i
    · simp [h, start, entries]
    · simp [h, Ne.symm h, start, entries]
  sublist := by simp [start]
  closed := by simp [start]

theorem entries_visit (children : Fin n → List (Fin n)) {w : Walk n} {v : Fin n}
    {level : List (Fin n)} (h : w.level = v :: level) :
    (w.visit children v level).entries =
      w.entries ++ (claim w.seen [] (children v)).1.map (·, w.depth + 1) := by
  simp [entries, visit, h, Visit.entry]

theorem depth_le_of_mem_entries {w : Walk n} {v : Fin n} {level : List (Fin n)}
    (hSorted : w.entries.Pairwise fun a b => a.2 ≤ b.2) (h : w.level = v :: level)
    {e : Fin n × Nat} (he : e ∈ w.entries) : e.2 ≤ w.depth + 1 := by
  rw [entries, List.append_assoc, List.pairwise_append] at hSorted
  rw [entries, List.append_assoc] at he
  rcases List.mem_append.mp he with hVisited | hWaiting
  · have hv := hSorted.2.2 e hVisited (v, w.depth) (by simp [h])
    exact Nat.le_succ_of_le hv
  · rcases List.mem_append.mp hWaiting with hLevel | hNext
    · obtain ⟨i, _, rfl⟩ := List.mem_map.mp hLevel
      exact Nat.le_succ _
    · obtain ⟨i, _, rfl⟩ := List.mem_map.mp hNext
      exact Nat.le_refl _

theorem Invariant.visit {w : Walk n} (hw : w.Invariant children root) {v : Fin n}
    {level : List (Fin n)} (h : w.level = v :: level) :
    (w.visit children v level).Invariant children root := by
  have hEntries := entries_visit children h
  obtain ⟨fresh, hList, hClaim⟩ := claim_fresh w.seen [] (children v)
  have hVisits : (w.visit children v level).visits = ⟨v, w.depth, fresh⟩ :: w.visits := by
    simp [Walk.visit, hList]
  have hSeen : (w.visit children v level).seen = (claim w.seen [] (children v)).2 := rfl
  rw [hList, List.reverse_nil, List.nil_append] at hEntries
  have hNodes : (fresh.map (·, w.depth + 1)).map Prod.fst = fresh := by simp [Function.comp_def]
  refine ⟨?_, ?_, ?_, ?_, ?_, ?_⟩
  · rw [hEntries, hVisits, hw.queue]
    simp [Visit.offspring]
  · rw [hEntries, List.map_append, List.nodup_append]
    rw [hNodes]
    refine ⟨hw.nodup, hClaim.nodup, ?_⟩
    rintro a ha b hb rfl
    have hNew : w.seen.get a = false := ((hClaim.mem_iff a).mp hb).2
    rw [(hw.seen_iff a).mpr ha] at hNew
    cases hNew
  · rw [hEntries, List.pairwise_append]
    refine ⟨hw.sorted, ?_, ?_⟩
    · rw [List.pairwise_map]
      exact List.pairwise_of_forall fun _ _ => Nat.le_refl _
    · intro e he b hb
      obtain ⟨c, _, rfl⟩ := List.mem_map.mp hb
      exact depth_le_of_mem_entries hw.sorted h he
  · intro i
    rw [hSeen, hClaim.marked_iff, hEntries, List.map_append, List.mem_append, ← hw.seen_iff]
    rw [hNodes, hClaim.mem_iff]
    cases w.seen.get i <;> simp
  · intro u hu
    rw [hVisits] at hu
    rcases List.mem_cons.mp hu with rfl | hu
    · exact hClaim.sublist
    · exact hw.sublist u hu
  · intro u hu c hc
    rw [hSeen, hClaim.marked_iff]
    rw [hVisits] at hu
    rcases List.mem_cons.mp hu with rfl | hu
    · exact Or.inr hc
    · exact Or.inl (hw.closed u hu c hc)

theorem Invariant.descend {w : Walk n} (hw : w.Invariant children root) (h : w.level = []) :
    w.descend.Invariant children root := by
  have hEntries : w.descend.entries = w.entries := by simp [entries, Walk.descend, h]
  exact ⟨hEntries ▸ hw.queue, hEntries ▸ hw.nodup, hEntries ▸ hw.sorted,
    fun i => hEntries ▸ hw.seen_iff i, hw.sublist, hw.closed⟩

/-- The invariant of a walk that is over. -/
theorem exists_finished {w : Walk n} (hw : w.Invariant children root) :
    ∃ e : Walk n, e.Invariant children root ∧ e.level = [] ∧ e.next = [] ∧
      w.finish children = e.visits.reverse := by
  fun_induction finish children w with
  | case1 w v level hl ih => exact ih (hw.visit hl)
  | case2 w hl hn => exact ⟨w, hw, hl, hn, rfl⟩
  | case3 w hl hn ih => exact ih (hw.descend hl)

end Walk

theorem exists_final (children : Fin n → List (Fin n)) (root : Fin n) :
    ∃ e : Walk n, e.Invariant children root ∧ visits children root = e.visits.reverse ∧
      e.entries = (visits children root).map Visit.entry := by
  obtain ⟨e, he, hl, hn, hVisits⟩ := Walk.exists_finished (Walk.start_invariant children root)
  refine ⟨e, he, hVisits, ?_⟩
  rw [visits, hVisits]
  simp [Walk.entries, hl, hn]

theorem visits_levelOrder (children : Fin n → List (Fin n)) (root : Fin n) :
    LevelOrder root (visits children root) := by
  obtain ⟨e, he, hVisits, hEntries⟩ := exists_final children root
  refine ⟨?_, ?_, ?_⟩
  · rw [← hEntries, hVisits]
    exact he.queue
  · have h := he.nodup
    rw [hEntries, List.map_map] at h
    exact h
  · have h := he.sorted
    rw [hEntries, List.pairwise_map] at h
    exact h

theorem visits_offspring (children : Fin n → List (Fin n)) (root : Fin n) {v : Visit n}
    (hv : v ∈ visits children root) :
    v.kept.Sublist (children v.node) ∧
      ∀ c ∈ children v.node, ∃ u ∈ visits children root, u.node = c := by
  obtain ⟨e, he, hVisits, hEntries⟩ := exists_final children root
  have hv : v ∈ e.visits := List.mem_reverse.mp (hVisits ▸ hv)
  refine ⟨he.sublist v hv, ?_⟩
  intro c hc
  have hSeen := (he.seen_iff c).mp (he.closed v hv c hc)
  rw [hEntries, List.map_map] at hSeen
  exact List.mem_map.mp hSeen

namespace LevelOrder

variable {visits : List (Visit n)}

theorem visit_eq (h : LevelOrder root visits) {u v : Visit n} (hu : u ∈ visits) (hv : v ∈ visits)
    (hNode : u.node = v.node) : u = v :=
  List.inj_on_of_nodup_map h.nodup hu hv hNode

theorem nodes_eq (h : LevelOrder root visits) :
    visits.map Visit.node = root :: visits.flatMap Visit.kept := by
  have hq := congrArg (List.map Prod.fst) h.queue
  rw [List.map_map, List.map_cons, List.map_flatMap] at hq
  have hKept : (fun v : Visit n => v.offspring.map Prod.fst) = Visit.kept := by
    funext v
    simp [Visit.offspring, Function.comp_def]
  rw [hKept] at hq
  exact hq

theorem nodup_kept (h : LevelOrder root visits) : (visits.flatMap Visit.kept).Nodup :=
  (List.nodup_cons.mp (h.nodes_eq ▸ h.nodup)).2

theorem root_notMem_kept (h : LevelOrder root visits) {v : Visit n} (hv : v ∈ visits) :
    root ∉ v.kept := by
  intro hRoot
  have hNot := (List.nodup_cons.mp (h.nodes_eq ▸ h.nodup)).1
  exact hNot (List.mem_flatMap.mpr ⟨v, hv, hRoot⟩)

theorem parent_unique (h : LevelOrder root visits) {u v : Visit n} {c : Fin n} (hu : u ∈ visits)
    (hv : v ∈ visits) (hcu : c ∈ u.kept) (hcv : c ∈ v.kept) : u = v := by
  by_contra hne
  have hDisjoint := (List.nodup_flatMap.mp h.nodup_kept).2
  have : Std.Symm (Function.onFun List.Disjoint (Visit.kept (n := n))) :=
    ⟨fun _ _ hd _ hi hj => hd hj hi⟩
  exact hDisjoint.forall hu hv hne hcu hcv

theorem exists_root_visit (h : LevelOrder root visits) :
    ∃ v ∈ visits, v.node = root ∧ v.depth = 0 := by
  have hMem : (root, 0) ∈ visits.map Visit.entry := h.queue ▸ List.mem_cons_self
  obtain ⟨v, hv, hEntry⟩ := List.mem_map.mp hMem
  exact ⟨v, hv, congrArg Prod.fst hEntry, congrArg Prod.snd hEntry⟩

theorem exists_child_visit (h : LevelOrder root visits) {v : Visit n} (hv : v ∈ visits) {c : Fin n}
    (hc : c ∈ v.kept) : ∃ u ∈ visits, u.node = c ∧ u.depth = v.depth + 1 := by
  have hOffspring : (c, v.depth + 1) ∈ v.offspring := List.mem_map.mpr ⟨c, hc, rfl⟩
  have hMem : (c, v.depth + 1) ∈ visits.map Visit.entry := by
    rw [h.queue]
    exact List.mem_cons_of_mem _ (List.mem_flatMap.mpr ⟨v, hv, hOffspring⟩)
  obtain ⟨u, hu, hEntry⟩ := List.mem_map.mp hMem
  exact ⟨u, hu, congrArg Prod.fst hEntry, congrArg Prod.snd hEntry⟩

theorem root_or_child (h : LevelOrder root visits) {u : Visit n} (hu : u ∈ visits) :
    u.node = root ∧ u.depth = 0 ∨
      ∃ v ∈ visits, u.node ∈ v.kept ∧ u.depth = v.depth + 1 := by
  have hMem : u.entry ∈ (root, 0) :: visits.flatMap Visit.offspring :=
    h.queue ▸ List.mem_map.mpr ⟨u, hu, rfl⟩
  rcases List.mem_cons.mp hMem with hRoot | hChild
  · exact Or.inl ⟨congrArg Prod.fst hRoot, congrArg Prod.snd hRoot⟩
  · obtain ⟨v, hv, hOffspring⟩ := List.mem_flatMap.mp hChild
    obtain ⟨c, hc, hEntry⟩ := List.mem_map.mp hOffspring
    have hNode : c = u.node := congrArg Prod.fst hEntry
    exact Or.inr ⟨v, hv, hNode ▸ hc, (congrArg Prod.snd hEntry).symm⟩

/-- What holds of the root and passes from a visit to its children holds of all visits. -/
theorem induction (h : LevelOrder root visits) {P : Visit n → Prop}
    (hRoot : ∀ v ∈ visits, v.node = root → v.depth = 0 → P v)
    (hChild : ∀ v ∈ visits, P v → ∀ u ∈ visits, u.node ∈ v.kept → u.depth = v.depth + 1 → P u) :
    ∀ v ∈ visits, P v := by
  have hLevel : ∀ d, ∀ v ∈ visits, v.depth = d → P v := by
    intro d
    induction d with
    | zero =>
      intro v hv hDepth
      rcases h.root_or_child hv with ⟨hNode, hZero⟩ | ⟨u, _, _, hSucc⟩
      · exact hRoot v hv hNode hZero
      · omega
    | succ d ih =>
      intro v hv hDepth
      rcases h.root_or_child hv with ⟨_, hZero⟩ | ⟨u, hu, hKept, hSucc⟩
      · omega
      · exact hChild u hu (ih u hu (by omega)) v hv hKept hSucc
  exact fun v hv => hLevel v.depth v hv rfl

/-- The children of a visit are visited behind it. -/
theorem child_notMem_before (h : LevelOrder root visits) {before after : List (Visit n)}
    {v : Visit n} (hSplit : visits = before ++ v :: after) {c : Fin n} (hc : c ∈ v.kept) :
    c ∉ (before ++ [v]).map Visit.node := by
  intro hMem
  obtain ⟨u, hu, rfl⟩ := List.mem_map.mp hMem
  have hu' : u ∈ visits := by
    rw [hSplit, List.append_cons]
    exact List.mem_append_left _ hu
  obtain ⟨w, hw, hNode, hDepth⟩ := h.exists_child_visit (hSplit ▸ List.mem_append_right _
    List.mem_cons_self) hc
  rw [h.visit_eq hw hu' hNode] at hDepth
  have hSorted := h.sorted
  rw [hSplit, List.pairwise_append] at hSorted
  rcases List.mem_append.mp hu with hBefore | hSelf
  · have hLe := hSorted.2.2 u hBefore v List.mem_cons_self
    omega
  · rw [List.mem_singleton.mp hSelf] at hDepth
    omega

/-- The parent of a visit is visited before it. -/
theorem notMem_kept_after (h : LevelOrder root visits) {before after : List (Visit n)}
    {v : Visit n} (hSplit : visits = before ++ v :: after) {u : Visit n} (hu : u ∈ v :: after) :
    v.node ∉ u.kept := by
  intro hKept
  have hv : v ∈ visits := hSplit ▸ List.mem_append_right _ List.mem_cons_self
  have hu' : u ∈ visits := hSplit ▸ List.mem_append_right _ hu
  obtain ⟨w, hw, hNode, hDepth⟩ := h.exists_child_visit hu' hKept
  rw [h.visit_eq hw hv hNode] at hDepth
  have hSorted := h.sorted
  rw [hSplit, List.pairwise_append, List.pairwise_cons] at hSorted
  rcases List.mem_cons.mp hu with rfl | hAfter
  · omega
  · have hLe := hSorted.2.1.1 u hAfter
    omega

end LevelOrder

end SyntaxDrawing.Layout
