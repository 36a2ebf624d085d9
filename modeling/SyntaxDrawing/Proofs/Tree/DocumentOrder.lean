import SyntaxDrawing.Proofs.Tree.Occurrence
import Mathlib.Data.List.Lex

/-!
# The order of a document

An occurrence is found by the numbers of the children that lead to it. Read from the top down they
are its path, and document order is the order of paths. `within` lists exactly what an occurrence
holds, each once and in document order.
-/

namespace SyntaxDrawing

namespace Occurrence

def path (p : Occurrence) : List Nat :=
  (p.steps.map Prod.snd).reverse

/-- What encloses comes before what it encloses, and a child before the later children. -/
def Before (p q : Occurrence) : Prop :=
  List.Lex (· < ·) p.path q.path

instance (p q : Occurrence) : Decidable (p.Before q) :=
  inferInstanceAs (Decidable (List.Lex (· < ·) p.path q.path))

theorem Before.asymm {p q : Occurrence} (h : p.Before q) : ¬ q.Before p :=
  Std.Asymm.asymm (r := List.Lex (· < ·)) p.path q.path h

theorem before_irrefl (p : Occurrence) : ¬ p.Before p :=
  fun h => h.asymm h

def child (p : Occurrence) (i : Nat) (t : Tree) : Occurrence :=
  ⟨t, (p.value, i) :: p.steps⟩

@[simp] theorem path_child (p : Occurrence) (i : Nat) (t : Tree) :
    (p.child i t).path = p.path ++ [i] := by
  simp [path, child]

theorem inner_eq (p : Occurrence) :
    p.inner = p.value.children.zipIdx.map fun (t, i) => p.child i t :=
  rfl

theorem mem_inner_iff {p c : Occurrence} :
    c ∈ p.inner ↔ ∃ i t, p.value.children[i]? = some t ∧ c = p.child i t := by
  rw [inner_eq, List.mem_map]
  constructor
  · rintro ⟨⟨t, i⟩, hMem, rfl⟩
    exact ⟨i, t, List.mem_zipIdx_iff_getElem?.mp hMem, rfl⟩
  · rintro ⟨i, t, hChild, rfl⟩
    exact ⟨(t, i), List.mem_zipIdx_iff_getElem?.mpr hChild, rfl⟩

/-- An occurrence holds itself and the children of what it holds. -/
inductive Holds (p : Occurrence) : Occurrence → Prop
  | self : Holds p p
  | child {q : Occurrence} {i : Nat} {t : Tree} (hq : Holds p q)
      (ht : q.value.children[i]? = some t) : Holds p (q.child i t)

theorem Holds.trans {p q r : Occurrence} (hpq : p.Holds q) (hqr : q.Holds r) : p.Holds r := by
  induction hqr with
  | self => exact hpq
  | child _ ht ih => exact ih.child ht

theorem mem_within_of_mem_inner {p q c : Occurrence} (hq : q ∈ p.within) (hc : c ∈ q.inner) :
    c ∈ p.within := by
  induction p using Occurrence.induction with
  | h p ih =>
    rw [within_eq] at hq ⊢
    apply List.mem_cons_of_mem
    rcases List.mem_cons.mp hq with rfl | hInner
    · refine List.mem_flatMap.mpr ⟨c, hc, ?_⟩
      rw [within_eq]
      exact List.mem_cons_self
    · obtain ⟨d, hd, hWithin⟩ := List.mem_flatMap.mp hInner
      exact List.mem_flatMap.mpr ⟨d, hd, ih d hd hWithin⟩

theorem mem_within_iff {p q : Occurrence} : q ∈ p.within ↔ p.Holds q := by
  constructor
  · intro hq
    induction p using Occurrence.induction with
    | h p ih =>
      rw [within_eq] at hq
      rcases List.mem_cons.mp hq with rfl | hInner
      · exact .self
      · obtain ⟨c, hc, hWithin⟩ := List.mem_flatMap.mp hInner
        obtain ⟨i, t, ht, rfl⟩ := mem_inner_iff.mp hc
        exact (Holds.self.child ht).trans (ih _ hc hWithin)
  · intro hq
    induction hq with
    | self =>
      rw [within_eq]
      exact List.mem_cons_self
    | child _ ht ih => exact mem_within_of_mem_inner ih (mem_inner_iff.mpr ⟨_, _, ht, rfl⟩)

theorem Holds.exists_path {p q : Occurrence} (h : p.Holds q) : ∃ more, q.path = p.path ++ more := by
  induction h with
  | self => exact ⟨[], by simp⟩
  | @child q i t _ _ ih =>
    obtain ⟨more, hPath⟩ := ih
    exact ⟨more ++ [i], by rw [path_child, hPath, List.append_assoc]⟩

theorem exists_path_of_mem_within_child {p q : Occurrence} {i : Nat} {t : Tree}
    (h : q ∈ (p.child i t).within) : ∃ more, q.path = p.path ++ i :: more := by
  obtain ⟨more, hPath⟩ := (mem_within_iff.mp h).exists_path
  exact ⟨more, by rw [hPath, path_child, List.append_assoc, List.singleton_append]⟩

theorem pairwise_snd_lt_zipIdx {α : Type} (xs : List α) (k : Nat) :
    (xs.zipIdx k).Pairwise fun a b => a.2 < b.2 := by
  induction xs generalizing k with
  | nil => exact .nil
  | cons x xs ih =>
    rw [List.zipIdx_cons, List.pairwise_cons]
    exact ⟨fun _ hb => List.le_snd_of_mem_zipIdx hb, ih (k + 1)⟩

theorem pairwise_within (p : Occurrence) : p.within.Pairwise Before := by
  induction p using Occurrence.induction with
  | h p ih =>
    rw [within_eq, List.pairwise_cons, List.pairwise_flatMap]
    refine ⟨?_, ih, ?_⟩
    · intro q hq
      obtain ⟨c, hc, hWithin⟩ := List.mem_flatMap.mp hq
      obtain ⟨i, t, _, rfl⟩ := mem_inner_iff.mp hc
      obtain ⟨more, hPath⟩ := exists_path_of_mem_within_child hWithin
      have hLex := List.Lex.append_left (· < ·) (List.Lex.nil (a := i) (l := more)) p.path
      rwa [List.append_nil, ← hPath] at hLex
    · -- Two children: the paths part at the child's number.
      rw [inner_eq, List.pairwise_map]
      refine (pairwise_snd_lt_zipIdx p.value.children 0).imp ?_
      intro a b hLt q hq r hr
      obtain ⟨more, hPath⟩ := exists_path_of_mem_within_child hq
      obtain ⟨more', hPath'⟩ := exists_path_of_mem_within_child hr
      rw [Before, hPath, hPath']
      exact List.Lex.append_left _ (List.Lex.rel hLt) p.path

theorem Holds.eq_top_iff {t : Tree} {p : Occurrence} (h : (top t).Holds p) :
    p = top t ↔ p.steps.isEmpty := by
  cases h with
  | self => exact iff_of_true rfl rfl
  | child => exact iff_of_false (fun h => nomatch congrArg steps h) (by simp [Occurrence.child])

theorem mem_around_holds {p q r : Occurrence} (h : p.Holds q) (hp : p.steps = [])
    (hr : r ∈ q.around) : p.Holds r := by
  induction h with
  | self =>
    rw [around, hp] at hr
    cases hr
  | @child q i t hq ht ih =>
    rw [around_inner (mem_inner_iff.mpr ⟨i, t, ht, rfl⟩)] at hr
    rcases List.mem_cons.mp hr with rfl | hAround
    · exact hq
    · exact ih hAround

end Occurrence

namespace Tree

variable {policy : Policy} {t : Tree}

theorem mem_emitted_iff {p : Occurrence} :
    p ∈ t.emitted policy ↔ (Occurrence.top t).Holds p ∧ policy.emits p := by
  rw [emitted, List.mem_filter, Occurrence.mem_within_iff]

theorem pairwise_emitted (policy : Policy) (t : Tree) :
    (t.emitted policy).Pairwise Occurrence.Before :=
  (Occurrence.pairwise_within _).filter _

theorem mem_emitted_of_nearest? {p q : Occurrence} (hp : p ∈ t.emitted policy)
    (hq : p.nearest? policy = some q) : q ∈ t.emitted policy := by
  rw [mem_emitted_iff] at hp ⊢
  exact ⟨Occurrence.mem_around_holds hp.1 rfl (List.mem_of_find?_eq_some hq),
    List.find?_some hq⟩

end Tree

end SyntaxDrawing
