import SyntaxDrawing.Graph.Build
import Std.Data.String.ToNat
import Mathlib.Data.List.Induction
import Mathlib.Data.List.Nodup

/-!
# The ids of a graph

An id is a tag, an underscore and a number. The last underscore ends the tag, whatever the tag
itself looks like, so two ids agree only if their tags and numbers do. Behind other nodes the ids of
a graph have other numbers, which are the old ones raised by what came before.
-/

namespace SyntaxDrawing

theorem append_cons_inj_right {α : Type} {a : α} {xs ys s t : List α} (hs : a ∉ s) (ht : a ∉ t)
    (h : xs ++ a :: s = ys ++ a :: t) : xs = ys ∧ s = t := by
  rcases List.append_eq_append_iff.mp h with ⟨zs, hys, hzs⟩ | ⟨zs, hxs, hzs⟩
  · cases zs with
    | nil => exact ⟨by simpa using hys.symm, by simpa using hzs⟩
    | cons z zs =>
      rw [List.cons_append, List.cons.injEq] at hzs
      exact absurd (hzs.2 ▸ List.mem_append_right zs List.mem_cons_self) hs
  · cases zs with
    | nil => exact ⟨by simpa using hxs, by simpa using hzs.symm⟩
    | cons z zs =>
      rw [List.cons_append, List.cons.injEq] at hzs
      exact absurd (hzs.2 ▸ List.mem_append_right zs List.mem_cons_self) ht

theorem underscore_notMem_repr (k : Nat) : '_' ∉ (Nat.repr k).toList := by
  rw [Nat.toList_repr]
  exact Nat.underscore_not_in_toDigits

theorem idOf_injective {tag tag' : String} {k k' : Nat}
    (h : Draft.idOf tag k = Draft.idOf tag' k') : tag = tag' ∧ k = k' := by
  have hChars := congrArg String.toList h
  simp only [Draft.idOf, String.toList_append, List.append_assoc] at hChars
  obtain ⟨hTag, hNumber⟩ := append_cons_inj_right (underscore_notMem_repr k)
    (underscore_notMem_repr k') hChars
  exact ⟨String.toList_injective hTag, Nat.repr_injective (String.toList_injective hNumber)⟩

/-- The ids of nodes with these tags. The number in an id is that of the nodes with its tag so
far. -/
def idsOf (tags : List String) : List String :=
  tags.zipIdx.map fun (tag, k) => Draft.idOf tag ((tags.take (k + 1)).count tag)

@[simp] theorem length_idsOf (tags : List String) : (idsOf tags).length = tags.length := by
  simp [idsOf]

theorem idsOf_append_singleton (tags : List String) (tag : String) :
    idsOf (tags ++ [tag]) = idsOf tags ++ [Draft.idOf tag (tags.count tag + 1)] := by
  rw [idsOf, List.zipIdx_append, List.map_append, idsOf]
  congr 1
  · apply List.map_congr_left
    rintro ⟨s, k⟩ hMem
    have hk : k < tags.length := by
      have := List.snd_lt_of_mem_zipIdx hMem
      omega
    simp only
    rw [List.take_append_of_le_length (by omega)]
  · have hTake : (tags ++ [tag]).take (tags.length + 1) = tags ++ [tag] :=
      List.take_of_length_le (by simp)
    simp [hTake]

theorem exists_number_of_mem_idsOf {tags : List String} {id : String} (h : id ∈ idsOf tags) :
    ∃ tag k, id = Draft.idOf tag k ∧ k ≤ tags.count tag := by
  obtain ⟨⟨tag, k⟩, _, rfl⟩ := List.mem_map.mp h
  exact ⟨tag, _, rfl, (List.take_sublist _ tags).count_le tag⟩

theorem nodup_idsOf (tags : List String) : (idsOf tags).Nodup := by
  induction tags using List.reverseRecOn with
  | nil => exact List.nodup_nil
  | append_singleton tags tag ih =>
    rw [idsOf_append_singleton, ← List.concat_eq_append]
    apply ih.concat
    intro hMem
    obtain ⟨tag', k, hId, hk⟩ := exists_number_of_mem_idsOf hMem
    obtain ⟨rfl, rfl⟩ := idOf_injective hId
    omega

/-- Every number is raised by an amount that its tag sets. -/
def Renumbers (shift : String → Nat) (rename : String → String) : Prop :=
  ∀ tag k, rename (Draft.idOf tag k) = Draft.idOf tag (k + shift tag)

theorem exists_renumbers (shift : String → Nat) : ∃ rename, Renumbers shift rename := by
  have hNew : ∀ s : String, ∃ s', ∀ tag k, s = Draft.idOf tag k →
      s' = Draft.idOf tag (k + shift tag) := by
    intro s
    by_cases hId : ∃ tag k, s = Draft.idOf tag k
    · obtain ⟨tag, k, rfl⟩ := hId
      refine ⟨Draft.idOf tag (k + shift tag), ?_⟩
      intro tag' k' hEq
      obtain ⟨rfl, rfl⟩ := idOf_injective hEq
      rfl
    · exact ⟨s, fun tag k hEq => absurd ⟨tag, k, hEq⟩ hId⟩
  choose rename hRename using hNew
  exact ⟨rename, fun tag k => hRename _ tag k rfl⟩

/-- Behind other tags, the numbers go on from theirs. -/
theorem idsOf_append {before tags : List String} {rename : String → String}
    (h : Renumbers (before.count ·) rename) :
    idsOf (before ++ tags) = idsOf before ++ (idsOf tags).map rename := by
  induction tags using List.reverseRecOn with
  | nil => simp [idsOf]
  | append_singleton tags tag ih =>
    rw [← List.append_assoc, idsOf_append_singleton, ih, idsOf_append_singleton, List.map_append,
      List.map_singleton, h, List.append_assoc, List.count_append]
    congr 4
    show before.count tag + tags.count tag + 1 = tags.count tag + 1 + before.count tag
    omega

end SyntaxDrawing
