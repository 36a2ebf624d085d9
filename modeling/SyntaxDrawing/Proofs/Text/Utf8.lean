import Mathlib.Data.List.DropRight
import SyntaxDrawing.Text.Utf8

/-!
# Bytes of texts

A byte below 0x80 is a character of its own wherever it stands in a text, so cutting such bytes off
either end of a text leaves the bytes of a text.
-/

namespace SyntaxDrawing.Text.Utf8

theorem encode_ofList (cs : List Char) :
    encode (String.ofList cs) = cs.flatMap String.utf8EncodeChar := by
  simp [encode, List.utf8Encode]

theorem encode_eq_flatMap (s : String) : encode s = s.toList.flatMap String.utf8EncodeChar := by
  rw [← encode_ofList, String.ofList_toList]

theorem encode_append (s s' : String) : encode (s ++ s') = encode s ++ encode s' := by
  rw [encode_eq_flatMap, encode_eq_flatMap, encode_eq_flatMap, String.toList_append,
    List.flatMap_append]

theorem utf8EncodeChar_of_mem {c : Char} {b : UInt8} (hb : b < 0x80)
    (h : b ∈ String.utf8EncodeChar c) : String.utf8EncodeChar c = [b] := by
  have hHigh (n : Nat) (hn : 128 ≤ n % 256) : b ≠ UInt8.ofNat n := by
    rintro rfl
    have hLess : n % 256 < 128 := by simpa [UInt8.lt_iff_toNat_lt] using hb
    omega
  unfold String.utf8EncodeChar at h ⊢
  simp only at h ⊢
  split at h
  · next hOne =>
    rw [if_pos hOne]
    rw [List.mem_singleton] at h
    rw [h]
  · exfalso
    split at h
    · simp only [List.mem_cons, List.not_mem_nil, or_false] at h
      rcases h with h | h
      · exact hHigh _ (by omega) h
      · exact hHigh _ (by omega) h
    split at h
    · simp only [List.mem_cons, List.not_mem_nil, or_false] at h
      rcases h with h | h | h
      · exact hHigh _ (by omega) h
      · exact hHigh _ (by omega) h
      · exact hHigh _ (by omega) h
    · simp only [List.mem_cons, List.not_mem_nil, or_false] at h
      rcases h with h | h | h | h
      · exact hHigh _ (by omega) h
      · exact hHigh _ (by omega) h
      · exact hHigh _ (by omega) h
      · exact hHigh _ (by omega) h

/-- A byte below 0x80 has the number of the character that it belongs to. -/
theorem toNat_of_mem_utf8EncodeChar {c : Char} {b : UInt8} (hb : b < 0x80)
    (h : b ∈ String.utf8EncodeChar c) : b.toNat = c.toNat := by
  have hOne := utf8EncodeChar_of_mem hb h
  have hSize : c.utf8Size = 1 := by
    rw [← String.length_utf8EncodeChar, hOne, List.length_singleton]
  have hVal : c.val.toNat ≤ 127 := UInt32.le_iff_toNat_le.mp (Char.utf8Size_eq_one_iff.mp hSize)
  rw [String.utf8EncodeChar_eq_singleton hSize, List.singleton_inj] at hOne
  rw [← hOne, UInt32.toNat_toUInt8]
  exact Nat.mod_eq_of_lt (by omega)

theorem dropWhile_flatMap {α β : Type} {f : α → List β} {p : β → Bool} {q : α → Bool}
    (hPos : ∀ a, q a = true → ∀ b ∈ f a, p b = true)
    (hNeg : ∀ a, q a = false → f a ≠ [] ∧ ∀ b ∈ f a, p b = false) (as : List α) :
    (as.flatMap f).dropWhile p = (as.dropWhile q).flatMap f := by
  induction as with
  | nil => rfl
  | cons a as ih =>
    rw [List.flatMap_cons]
    cases ha : q a with
    | true => rw [List.dropWhile_append_of_pos (hPos a ha), ih, List.dropWhile_cons_of_pos ha]
    | false =>
      obtain ⟨hNil, hNone⟩ := hNeg a ha
      obtain ⟨b, bs, hb⟩ := List.exists_cons_of_ne_nil hNil
      have hHead : p b = false := hNone b (by simp [hb])
      rw [List.dropWhile_cons_of_neg (by simp [ha]), List.flatMap_cons, hb, List.cons_append,
        List.dropWhile_cons_of_neg (by simp [hHead])]

variable {p : UInt8 → Bool}

/-- What is left of a text's bytes without those of one kind at the ends is the bytes of a text, if
only single-byte characters are of that kind. -/
theorem exists_encode_eq_trim (hp : ∀ b, p b = true → b < 0x80) (s : String) :
    ∃ s', ((encode s).dropWhile p).rdropWhile p = encode s' := by
  let q (c : Char) : Bool := (String.utf8EncodeChar c).any p
  have hPos (c : Char) (hc : q c = true) : ∀ b ∈ String.utf8EncodeChar c, p b = true := by
    obtain ⟨b, hMem, hb⟩ := List.any_eq_true.1 hc
    rw [utf8EncodeChar_of_mem (hp b hb) hMem]
    simpa using hb
  have hNeg (c : Char) (hc : q c = false) : ∀ b ∈ String.utf8EncodeChar c, p b = false := by
    simpa [q] using hc
  have hFront : (encode s).dropWhile p =
      (s.toList.dropWhile q).flatMap String.utf8EncodeChar := by
    rw [encode_eq_flatMap]
    exact dropWhile_flatMap hPos (fun c hc => ⟨String.utf8EncodeChar_ne_nil, hNeg c hc⟩) _
  have hBack (cs : List Char) : (cs.flatMap String.utf8EncodeChar).rdropWhile p =
      (cs.rdropWhile q).flatMap String.utf8EncodeChar := by
    have hReverse := dropWhile_flatMap (f := List.reverse ∘ String.utf8EncodeChar) (p := p) (q := q)
      (fun c hc b hb => hPos c hc b (by simpa using hb))
      (fun c hc => ⟨by simp, fun b hb => hNeg c hc b (by simpa using hb)⟩) cs.reverse
    rw [List.rdropWhile, List.reverse_flatMap, hReverse, List.reverse_flatMap, List.rdropWhile]
    simp [Function.comp_def]
  exact ⟨String.ofList ((s.toList.dropWhile q).rdropWhile q), by rw [hFront, hBack, encode_ofList]⟩

end SyntaxDrawing.Text.Utf8
