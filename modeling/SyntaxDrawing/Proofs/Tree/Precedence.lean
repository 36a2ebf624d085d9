import SyntaxDrawing.Proofs.Tree.DocumentOrder

/-!
# Precedence in a document

Of two occurrences in a document the one whose path begins the other's holds it. If neither holds
the other, the earlier one precedes the later with all that they hold. A node is on a higher level
than the nodes that it holds, so nodes of one level are always related in this way.
-/

namespace SyntaxDrawing.Occurrence

theorem lex_append_of_not_isPrefix {xs ys : List Nat} (h : List.Lex (· < ·) xs ys)
    (hNot : ¬ xs <+: ys) (more more' : List Nat) :
    List.Lex (· < ·) (xs ++ more) (ys ++ more') := by
  induction h with
  | nil => exact absurd List.nil_prefix hNot
  | rel hLt => exact .rel hLt
  | cons _ ih => exact .cons (ih fun hPrefix => hNot (List.cons_prefix_cons.mpr ⟨rfl, hPrefix⟩))

variable {t : Tree} {p q : Occurrence}

theorem Holds.eq_of_path_eq (hp : (top t).Holds p) (hq : (top t).Holds q)
    (hPath : p.path = q.path) : p = q := by
  obtain ⟨i, hi, rfl⟩ := List.getElem_of_mem (mem_within_iff.mpr hp)
  obtain ⟨j, hj, rfl⟩ := List.getElem_of_mem (mem_within_iff.mpr hq)
  have hOrder := List.pairwise_iff_getElem.mp (pairwise_within (top t))
  rcases Nat.lt_trichotomy i j with hLt | rfl | hGt
  · have hBefore := hOrder i j hi hj hLt
    rw [Before, ← hPath] at hBefore
    exact absurd hBefore (before_irrefl _)
  · rfl
  · have hBefore := hOrder j i hj hi hGt
    rw [Before, ← hPath] at hBefore
    exact absurd hBefore (before_irrefl _)

theorem holds_iff_isPrefix (hp : (top t).Holds p) (hq : (top t).Holds q) :
    p.Holds q ↔ p.path <+: q.path := by
  constructor
  · intro h
    obtain ⟨more, hPath⟩ := h.exists_path
    exact ⟨more, hPath.symm⟩
  · intro hPrefix
    induction hq with
    | self =>
      rw [hp.eq_of_path_eq .self (List.prefix_nil.mp hPrefix)]
      exact .self
    | @child r i s hr hs ih =>
      rw [path_child, List.prefix_concat_iff] at hPrefix
      rcases hPrefix with hSame | hAbove
      · rw [hp.eq_of_path_eq (hr.child hs) (by rw [path_child, hSame])]
        exact .self
      · exact (ih hAbove).child hs

theorem Holds.before {p' q' : Occurrence} (hp : (top t).Holds p) (hq : (top t).Holds q)
    (hBefore : p.Before q) (hNot : ¬ p.Holds q) (hp' : p.Holds p') (hq' : q.Holds q') :
    p'.Before q' := by
  rw [holds_iff_isPrefix hp hq] at hNot
  obtain ⟨more, hPath⟩ := hp'.exists_path
  obtain ⟨more', hPath'⟩ := hq'.exists_path
  rw [Before, hPath, hPath']
  exact lex_append_of_not_isPrefix hBefore hNot more more'

theorem holds_of_mem_around (hq : (top t).Holds q) (hp : p ∈ q.around) : p.Holds q := by
  induction hq with
  | self => cases hp
  | @child r i s _ hs ih =>
    rw [around_inner (mem_inner_iff.mpr ⟨i, s, hs, rfl⟩)] at hp
    rcases List.mem_cons.mp hp with rfl | hAround
    · exact Holds.self.child hs
    · exact (ih hAround).child hs

theorem level_child (policy : Policy) {r : Occurrence} {i : Nat} {s : Tree}
    (hs : r.value.children[i]? = some s) :
    (r.child i s).level policy = r.level policy + if policy.emits r then 1 else 0 := by
  rw [level, around_inner (mem_inner_iff.mpr ⟨i, s, hs, rfl⟩), List.countP_cons]
  rfl

theorem Holds.level_lt {policy : Policy} (hEmits : policy.emits p) (h : p.Holds q) :
    p = q ∨ p.level policy < q.level policy := by
  induction h with
  | self => exact Or.inl rfl
  | @child r i s _ hs ih =>
    right
    have hLevel := level_child policy hs
    rcases ih with rfl | hLt
    · rw [hLevel, if_pos hEmits]
      omega
    · omega

end SyntaxDrawing.Occurrence
