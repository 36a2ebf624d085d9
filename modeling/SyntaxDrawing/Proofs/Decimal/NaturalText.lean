import Mathlib.Data.List.DropRight
import SyntaxDrawing.Proofs.Decimal.LengthText

/-!
# Texts of natural numbers

A natural number is read from its decimal digits, which may stand behind a plus sign and between
blanks, and from nothing else. What is read is less than the bound that is asked for.
-/

namespace SyntaxDrawing

namespace Text

theorem exists_trimChars (cs : List Char) : ∃ before after, (∀ c ∈ before, isBlank c = true) ∧
    (∀ c ∈ after, isBlank c = true) ∧ cs = before ++ trimChars cs ++ after := by
  refine ⟨cs.takeWhile isBlank, (cs.dropWhile isBlank).rtakeWhile isBlank, ?_, ?_, ?_⟩
  · intro c hc
    exact List.mem_takeWhile_imp hc
  · intro c hc
    exact List.mem_rtakeWhile_imp hc
  · have hTrim : trimChars cs = (cs.dropWhile isBlank).rdropWhile isBlank := rfl
    rw [hTrim, List.append_assoc, List.rdropWhile_append_rtakeWhile,
      List.takeWhile_append_dropWhile]

theorem dropWhile_before {before core : List Char} (hBefore : ∀ c ∈ before, isBlank c = true)
    (hCore : ∀ c ∈ core, isBlank c = false) (hNonempty : core ≠ []) (after : List Char) :
    (before ++ (core ++ after)).dropWhile isBlank = core ++ after := by
  obtain ⟨c, rest, rfl⟩ := List.exists_cons_of_ne_nil hNonempty
  rw [List.dropWhile_append_of_pos hBefore, List.cons_append, List.dropWhile_cons_of_neg]
  rw [hCore c List.mem_cons_self]
  exact Bool.false_ne_true

theorem trimChars_enclosed {before core after : List Char}
    (hBefore : ∀ c ∈ before, isBlank c = true) (hCore : ∀ c ∈ core, isBlank c = false)
    (hNonempty : core ≠ []) (hAfter : ∀ c ∈ after, isBlank c = true) :
    trimChars (before ++ core ++ after) = core := by
  have hBack : (after.reverse ++ (core.reverse ++ [])).dropWhile isBlank = core.reverse ++ [] := by
    apply dropWhile_before
    · exact fun c hc => hAfter c (List.mem_reverse.mp hc)
    · exact fun c hc => hCore c (List.mem_reverse.mp hc)
    · exact List.reverse_ne_nil_iff.mpr hNonempty
  rw [List.append_nil, ← List.reverse_append] at hBack
  rw [trimChars, List.append_assoc, dropWhile_before hBefore hCore hNonempty, hBack,
    List.reverse_reverse]

end Text

namespace Decimal

def Numeral (digits : List Char) (n : Nat) : Prop :=
  digits ≠ [] ∧ (∀ c ∈ digits, c.isDigit = true) ∧ Nat.ofDigitChars 10 digits 0 = n

theorem ofDigits_map_digitValue (digits : List Char) :
    ofDigits (digits.map digitValue) = Nat.ofDigitChars 10 digits 0 := by
  rw [ofDigits, List.foldl_map]
  rfl

theorem spanDigits_of_numeral {digits : List Char} {n : Nat} (h : Numeral digits n) :
    spanDigits digits = (digits.map digitValue, []) := by
  rw [spanDigits, List.takeWhile_eq_self_iff.mpr h.2.1, List.dropWhile_eq_nil_iff.mpr h.2.1]

theorem numeral_of_spanDigits {cs : List Char} {d : Nat} {ds : List Nat}
    (h : spanDigits cs = (d :: ds, [])) : Numeral cs (ofDigits (d :: ds)) := by
  rw [spanDigits, Prod.mk.injEq, List.dropWhile_eq_nil_iff] at h
  obtain ⟨hDigits, hAll⟩ := h
  rw [List.takeWhile_eq_self_iff.mpr hAll] at hDigits
  refine ⟨?_, hAll, ?_⟩
  · rintro rfl
    cases hDigits
  · rw [← hDigits, ofDigits_map_digitValue]

theorem readNatural_eq_some_iff {bound n : Nat} {s : String} :
    readNatural bound s = some n ↔
      n < bound ∧ ∃ digits, Numeral digits n ∧ (s.toList = digits ∨ s.toList = '+' :: digits) := by
  rw [readNatural]
  dsimp only
  constructor
  · intro h
    split at h
    · next hSpan =>
      have hNumeral := numeral_of_spanDigits hSpan
      obtain ⟨hBound, hValue⟩ := Option.ite_none_right_eq_some.mp h
      cases hValue
      refine ⟨hBound, _, hNumeral, ?_⟩
      split
      · next hText => exact Or.inr hText
      · exact Or.inl rfl
    · cases h
  · rintro ⟨hBound, digits, hNumeral, hText⟩
    obtain ⟨c, rest, rfl⟩ := List.exists_cons_of_ne_nil hNumeral.1
    have hSpan := spanDigits_of_numeral hNumeral
    have hValue : ofDigits (digitValue c :: rest.map digitValue) = n :=
      (ofDigits_map_digitValue (c :: rest)).trans hNumeral.2.2
    rcases hText with hText | hText
    · have hPlus : c ≠ '+' := by
        rintro rfl
        exact absurd (hNumeral.2.1 '+' List.mem_cons_self) (by decide)
      simp [hText, hPlus, hSpan, hValue, hBound]
    · simp [hText, hSpan, hValue, hBound]

def Denotes (text : String) (n : Nat) : Prop :=
  ∃ before sign digits after, text.toList = before ++ (sign ++ digits) ++ after ∧
    (∀ c ∈ before, Text.isBlank c = true) ∧ (sign = [] ∨ sign = ['+']) ∧ Numeral digits n ∧
      ∀ c ∈ after, Text.isBlank c = true

theorem readNatural_trim_eq_some_iff {bound n : Nat} {text : String} :
    readNatural bound (Text.trim text) = some n ↔ n < bound ∧ Denotes text n := by
  rw [readNatural_eq_some_iff, Text.trim, String.toList_ofList]
  apply and_congr_right
  intro _
  constructor
  · rintro ⟨digits, hNumeral, hText⟩
    obtain ⟨before, after, hBefore, hAfter, hSplit⟩ := Text.exists_trimChars text.toList
    rcases hText with hText | hText
    · rw [hText] at hSplit
      exact ⟨before, [], digits, after, hSplit, hBefore, Or.inl rfl, hNumeral, hAfter⟩
    · rw [hText] at hSplit
      exact ⟨before, ['+'], digits, after, hSplit, hBefore, Or.inr rfl, hNumeral, hAfter⟩
  · rintro ⟨before, sign, digits, after, hText, hBefore, hSign, hNumeral, hAfter⟩
    have hCore : ∀ c ∈ sign ++ digits, Text.isBlank c = false := by
      intro c hc
      rcases List.mem_append.mp hc with hc | hc
      · rcases hSign with rfl | rfl
        · cases hc
        · rw [List.mem_singleton.mp hc]
          rfl
      · exact not_isBlank_of_isDigit (hNumeral.2.1 c hc)
    have hNonempty : sign ++ digits ≠ [] := List.append_ne_nil_of_right_ne_nil _ hNumeral.1
    refine ⟨digits, hNumeral, ?_⟩
    rw [hText, Text.trimChars_enclosed hBefore hCore hNonempty hAfter]
    rcases hSign with rfl | rfl
    · exact Or.inl rfl
    · exact Or.inr rfl

end Decimal

end SyntaxDrawing
