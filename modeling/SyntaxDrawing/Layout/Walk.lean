import SyntaxDrawing.Layout.Links

/-!
# The breadth-first walk

From the root the walk keeps, for every node it comes to, those children that nothing before has
claimed. What it keeps is a tree, and its visits are listed level by level. A walk has two lists of
nodes to visit: what remains of the level, and what has been claimed for the next one.
-/

namespace SyntaxDrawing.Layout

/-- A node with its level and the children it keeps, in order. -/
structure Visit (n : Nat) where
  node : Fin n
  depth : Nat
  kept : List (Fin n)

def claim {n : Nat} (seen : Vector Bool n) (claimed : List (Fin n)) :
    List (Fin n) → List (Fin n) × Vector Bool n
  | [] => (claimed.reverse, seen)
  | c :: rest =>
    if seen.get c then claim seen claimed rest else claim (put seen c true) (c :: claimed) rest

theorem count_claim {n : Nat} (seen : Vector Bool n) (claimed nodes : List (Fin n)) :
    (claim seen claimed nodes).1.length + (claim seen claimed nodes).2.count false =
      claimed.length + seen.count false := by
  fun_induction claim seen claimed nodes with
  | case1 => simp
  | case2 _ _ _ _ _ ih => exact ih
  | case3 seen claimed c rest h ih =>
    rw [ih]
    have hc : seen[c.val] = false := by simpa [get_eq_getElem] using h
    have hpos : 0 < seen.count false := Vector.count_pos_iff.mpr (hc ▸ Vector.getElem_mem c.isLt)
    simp only [put, Vector.count_set, hc, List.length_cons]
    simp
    omega

/-- A walk under way. The next level and the visits made are listed last first. -/
structure Walk (n : Nat) where
  seen : Vector Bool n
  level : List (Fin n)
  depth : Nat
  next : List (Fin n)
  visits : List (Visit n)

namespace Walk

variable {n : Nat}

def start (root : Fin n) : Walk n :=
  { seen := put (Vector.replicate n false) root true
    level := [root]
    depth := 0
    next := []
    visits := [] }

def visit (children : Fin n → List (Fin n)) (w : Walk n) (v : Fin n) (level : List (Fin n)) :
    Walk n :=
  let (kept, seen) := claim w.seen [] (children v)
  { w with
    seen
    level
    next := kept.reverse ++ w.next
    visits := ⟨v, w.depth, kept⟩ :: w.visits }

def descend (w : Walk n) : Walk n :=
  { w with level := w.next.reverse, depth := w.depth + 1, next := [] }

/-- Twice the nodes that are yet to be visited, and one while some of them wait for the next
level. -/
def pending (w : Walk n) : Nat :=
  2 * (w.seen.count false + w.level.length + w.next.length) + min 1 w.next.length

theorem pending_visit (children : Fin n → List (Fin n)) {w : Walk n} {v : Fin n}
    {level : List (Fin n)} (h : w.level = v :: level) :
    (w.visit children v level).pending < w.pending := by
  have hc := count_claim w.seen [] (children v)
  simp only [pending, visit, h, List.length_append, List.length_reverse, List.length_cons,
    List.length_nil] at hc ⊢
  omega

theorem pending_descend {w : Walk n} (hl : w.level = []) (hn : w.next ≠ []) :
    w.descend.pending < w.pending := by
  have := List.length_pos_iff.mpr hn
  simp only [pending, descend, hl, List.length_reverse, List.length_nil]
  omega

def finish (children : Fin n → List (Fin n)) (w : Walk n) : List (Visit n) :=
  match _hl : w.level with
  | v :: level => finish children (w.visit children v level)
  | [] =>
    if _hn : w.next = [] then w.visits.reverse else finish children w.descend
termination_by w.pending
decreasing_by
  · exact pending_visit children _hl
  · exact pending_descend _hl _hn

end Walk

def visits {n : Nat} (children : Fin n → List (Fin n)) (root : Fin n) : List (Visit n) :=
  (Walk.start root).finish children

end SyntaxDrawing.Layout
