import SyntaxDrawing.Proofs.Layout.Links
import SyntaxDrawing.Proofs.Layout.Arrangement
import Mathlib.Logic.Function.Basic

/-!
# Nodes in other places

The walk and the passes know nodes only by their places in tables. If every node is given another
place, and its children with it, the walk visits the same nodes in the same order and the passes
compute the same numbers for them. No law of arithmetic is used.
-/

namespace SyntaxDrawing.Layout

open Function

variable {m n : Nat} {f : Fin m → Fin n}

/-- At the new place of each node the second table holds what the first one holds at the old. -/
def Carries {β : Type} (f : Fin m → Fin n) (old : Vector β m) (new : Vector β n) : Prop :=
  ∀ i, new.get (f i) = old.get i

namespace Carries

variable {β : Type} {old : Vector β m} {new : Vector β n}

theorem replicate (f : Fin m → Fin n) (x : β) :
    Carries f (Vector.replicate m x) (Vector.replicate n x) := by
  intro i
  rw [get_replicate, get_replicate]

theorem put (h : Carries f old new) (hf : Injective f) (i : Fin m) (x : β) :
    Carries f (Layout.put old i x) (Layout.put new (f i) x) := by
  intro j
  rw [get_put, get_put, h j]
  simp only [hf.eq_iff]

theorem map_get (h : Carries f old new) (row : List (Fin m)) :
    (row.map f).map new.get = row.map old.get := by
  rw [List.map_map]
  exact List.map_congr_left fun i _ => h i

end Carries

def Visit.rename (f : Fin m → Fin n) (v : Visit m) : Visit n :=
  ⟨f v.node, v.depth, v.kept.map f⟩

theorem claim_rename (hf : Injective f) {seen : Vector Bool m} {seen' : Vector Bool n}
    (hSeen : Carries f seen seen') (claimed nodes : List (Fin m)) :
    (claim seen' (claimed.map f) (nodes.map f)).1 = (claim seen claimed nodes).1.map f ∧
      Carries f (claim seen claimed nodes).2 (claim seen' (claimed.map f) (nodes.map f)).2 := by
  fun_induction claim seen claimed nodes generalizing seen' with
  | case1 seen claimed =>
    exact ⟨List.map_reverse.symm, hSeen⟩
  | case2 seen claimed c rest hc ih =>
    rw [List.map_cons, claim, if_pos ((hSeen c).trans hc)]
    exact ih hSeen
  | case3 seen claimed c rest hc ih =>
    rw [List.map_cons, claim, if_neg ((hSeen c).symm ▸ hc)]
    exact ih (hSeen.put hf c true)

namespace Walk

structure Renamed (f : Fin m → Fin n) (w : Walk m) (w' : Walk n) : Prop where
  seen : Carries f w.seen w'.seen
  level : w'.level = w.level.map f
  depth : w'.depth = w.depth
  next : w'.next = w.next.map f
  visits : w'.visits = w.visits.map (Visit.rename f)

theorem start_renamed (hf : Injective f) (root : Fin m) :
    Renamed f (start root) (start (f root)) :=
  ⟨(Carries.replicate f false).put hf root true, rfl, rfl, rfl, rfl⟩

namespace Renamed

variable {w : Walk m} {w' : Walk n}

theorem visit (h : Renamed f w w') (hf : Injective f) {children : Fin m → List (Fin m)}
    {children' : Fin n → List (Fin n)} (hChildren : ∀ i, children' (f i) = (children i).map f)
    (v : Fin m) (level : List (Fin m)) :
    Renamed f (w.visit children v level) (w'.visit children' (f v) (level.map f)) := by
  obtain ⟨hKept, hSeen⟩ := claim_rename hf h.seen [] (children v)
  rw [← hChildren v] at hKept hSeen
  refine ⟨hSeen, rfl, h.depth, ?_, ?_⟩
  · simp only [Walk.visit, List.map_append, List.map_reverse, ← hKept, h.next, List.map_nil]
  · simp only [Walk.visit, List.map_cons, Visit.rename, ← hKept, h.visits, h.depth, List.map_nil]

theorem descend (h : Renamed f w w') : Renamed f w.descend w'.descend :=
  ⟨h.seen, (congrArg List.reverse h.next).trans List.map_reverse.symm,
    congrArg (· + 1) h.depth, rfl, h.visits⟩

theorem finish (h : Renamed f w w') (hf : Injective f) {children : Fin m → List (Fin m)}
    {children' : Fin n → List (Fin n)} (hChildren : ∀ i, children' (f i) = (children i).map f) :
    w'.finish children' = (w.finish children).map (Visit.rename f) := by
  fun_induction Walk.finish children w generalizing w' with
  | case1 w v level hl ih =>
    have hLevel : w'.level = f v :: level.map f := by rw [h.level, hl, List.map_cons]
    rw [← ih (h.visit hf hChildren v level), Walk.finish]
    split
    · next u rest hSplit =>
      rw [hLevel, List.cons.injEq] at hSplit
      obtain ⟨rfl, rfl⟩ := hSplit
      rfl
    · next hNil => exact absurd (hLevel.symm.trans hNil) (List.cons_ne_nil _ _)
  | case2 w hl hn =>
    have hLevel : w'.level = [] := by rw [h.level, hl, List.map_nil]
    have hNext : w'.next = [] := by rw [h.next, hn, List.map_nil]
    rw [Walk.finish]
    split
    · next u rest hSplit => exact absurd (hSplit.symm.trans hLevel) (List.cons_ne_nil _ _)
    · rw [dif_pos hNext, h.visits, List.map_reverse]
  | case3 w hl hn ih =>
    have hLevel : w'.level = [] := by rw [h.level, hl, List.map_nil]
    have hNext : w'.next ≠ [] := by rwa [h.next, Ne, List.map_eq_nil_iff]
    rw [← ih h.descend, Walk.finish]
    split
    · next u rest hSplit => exact absurd (hSplit.symm.trans hLevel) (List.cons_ne_nil _ _)
    · rw [dif_neg hNext]

end Renamed

end Walk

theorem visits_rename (hf : Injective f) {children : Fin m → List (Fin m)}
    {children' : Fin n → List (Fin n)} (hChildren : ∀ i, children' (f i) = (children i).map f)
    (root : Fin m) : visits children' (f root) = (visits children root).map (Visit.rename f) :=
  (Walk.start_renamed hf root).finish hf hChildren

section

variable {α : Type} [Coordinate α] (g : Geometry α)

theorem widen_carries (hf : Injective f) {widths : Vector α m} {widths' : Vector α n}
    (h : Carries f widths widths') (v : Visit m) :
    Carries f (widen g v widths) (widen g (v.rename f) widths') := by
  simp only [widen, Visit.rename, List.isEmpty_map, h.map_get]
  split
  · exact h
  · exact h.put hf v.node _

theorem subtreeWidths_carries (hf : Injective f) (visits : List (Visit m)) :
    Carries f (subtreeWidths g visits) (subtreeWidths g (visits.map (Visit.rename f))) := by
  induction visits with
  | nil => exact .replicate f g.nodeWidth
  | cons v rest ih => exact widen_carries g hf ih v

theorem placeRow_carries (hf : Injective f) {widths : Vector α m} {widths' : Vector α n}
    (hWidths : Carries f widths widths') (row : List (Fin m)) (left : α) {centres : Vector α m}
    {centres' : Vector α n} (h : Carries f centres centres') :
    Carries f (placeRow g widths left centres row)
      (placeRow g widths' left centres' (row.map f)) := by
  induction row generalizing left centres centres' with
  | nil => exact h
  | cons c rest ih =>
    rw [List.map_cons, placeRow, placeRow, hWidths c]
    exact ih _ (h.put hf c _)

theorem centres_carries (hf : Injective f) {widths : Vector α m} {widths' : Vector α n}
    (hWidths : Carries f widths widths') (visits : List (Visit m)) :
    Carries f (centres g widths visits) (centres g widths' (visits.map (Visit.rename f))) := by
  have hFold : ∀ (old : Vector α m) (new : Vector α n), Carries f old new →
      Carries f (visits.foldl (placeChildren g widths) old)
        ((visits.map (Visit.rename f)).foldl (placeChildren g widths') new) := by
    induction visits with
    | nil => exact fun _ _ h => h
    | cons v rest ih =>
      intro old new h
      apply ih
      simp only [placeChildren, Visit.rename, hWidths.map_get, h v.node]
      exact placeRow_carries g hf hWidths v.kept _ h
  exact hFold _ _ (.replicate f g.originX)

theorem positions_carries (hf : Injective f) {centres : Vector α m} {centres' : Vector α n}
    (hCentres : Carries f centres centres') (visits : List (Visit m)) :
    Carries f (positions g centres visits)
      (positions g centres' (visits.map (Visit.rename f))) := by
  have hFold : ∀ (old : Vector (Option (Position α)) m) (new : Vector (Option (Position α)) n),
      Carries f old new → Carries f
        (visits.foldl (fun placed v => put placed v.node
          (some ⟨centres.get v.node, Coordinate.ofCount v.depth * g.levelHeight⟩)) old)
        ((visits.map (Visit.rename f)).foldl (fun placed v => put placed v.node
          (some ⟨centres'.get v.node, Coordinate.ofCount v.depth * g.levelHeight⟩)) new) := by
    induction visits with
    | nil => exact fun _ _ h => h
    | cons v rest ih =>
      intro old new h
      apply ih
      simp only [Visit.rename, hCentres v.node]
      exact h.put hf v.node _
  exact hFold _ _ (.replicate f none)

end

def SpanningTree.rename (f : Fin m → Fin n) (tree : SpanningTree m) : SpanningTree n :=
  ⟨f tree.root, tree.visits.map (Visit.rename f)⟩

section

variable {links : List (Link m)} {links' : List (Link n)}

theorem roots_rename (hf : Bijective f)
    (hChildren : ∀ i, (childTable links').get (f i) = ((childTable links).get i).map f) :
    (roots links').Perm ((roots links).map f) := by
  refine (List.perm_ext_iff_of_nodup (nodup_roots links')
    ((nodup_roots links).map hf.injective)).mpr ?_
  intro i
  obtain ⟨i, rfl⟩ := hf.surjective i
  rw [List.mem_map_of_injective hf.injective, mem_roots_iff_children, mem_roots_iff_children,
    hf.surjective.forall]
  simp only [hChildren, List.mem_map_of_injective hf.injective]

theorem soleRoot_rename (hf : Bijective f)
    (hChildren : ∀ i, (childTable links').get (f i) = ((childTable links).get i).map f) :
    soleRoot links' = (soleRoot links).map f := by
  have hPerm := roots_rename hf hChildren
  have hSize : m = n := Fin.equiv_iff_eq.mp ⟨Equiv.ofBijective f hf⟩
  subst hSize
  rw [soleRoot, soleRoot]
  by_cases hm : m = 0
  · rw [if_pos hm, if_pos hm]
    rfl
  · rw [if_neg hm, if_neg hm]
    cases hRoots : roots links with
    | nil =>
      rw [hRoots, List.map_nil, List.perm_nil] at hPerm
      rw [hPerm]
      rfl
    | cons r rest =>
      cases rest with
      | nil =>
        rw [hRoots, List.map_singleton, List.perm_singleton] at hPerm
        rw [hPerm]
        rfl
      | cons s rest =>
        have hLength := hPerm.length_eq
        rw [hRoots, List.length_map] at hLength
        cases hRoots' : roots links' with
        | nil => simp [hRoots'] at hLength
        | cons r' rest' =>
          cases rest' with
          | nil => simp [hRoots'] at hLength
          | cons s' rest' =>
            rw [hRoots'] at hLength
            exact congrArg (fun k => Except.error (LayoutFailure.manyRoots k)) hLength

end

theorem spanningTree_rename (hf : Bijective f) {ids : Vector String m} {ids' : Vector String n}
    {edges edges' : List Edge}
    (hChildren : ∀ i, (childTable (resolve ids' edges')).get (f i) =
      ((childTable (resolve ids edges)).get i).map f) :
    spanningTree ids' edges' = (spanningTree ids edges).map (SpanningTree.rename f) := by
  have hRoot := soleRoot_rename hf hChildren
  simp only [spanningTree, hRoot]
  cases soleRoot (resolve ids edges) with
  | error e => rfl
  | ok root =>
    have hVisits := visits_rename hf.injective hChildren root
    simp only [Except.map, SpanningTree.rename, hVisits]

end SyntaxDrawing.Layout
