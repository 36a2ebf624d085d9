import Mathlib.Data.List.Forall2
import SyntaxDrawing.Proofs.Document
import SyntaxDrawing.Proofs.Json.Remainder

/-!
# Blanks around a document

Two texts that differ in the blanks at their ends are read alike: what the reader takes off one of
them it takes off the other, up to the end of the document. The relation is symmetric, so one
simulation settles both what is read and what is refused.
-/

namespace SyntaxDrawing.Json

variable {rest rest' left left' : List UInt8}

inductive Alike : List UInt8 → List UInt8 → Prop
  | cons {rest rest' : List UInt8} (b : UInt8) : Alike rest rest' → Alike (b :: rest) (b :: rest')
  | blank {rest rest' : List UInt8} : skipBlank rest = [] → skipBlank rest' = [] → Alike rest rest'

theorem skipBlank_of_not_blank {b : UInt8} (hb : isBlankByte b = false) (rest : List UInt8) :
    skipBlank (b :: rest) = b :: rest := by
  simp [skipBlank, hb]

theorem not_blank_of_skipBlank_eq {b : UInt8} (h : skipBlank rest = b :: left) :
    isBlankByte b = false := by
  by_contra hb
  rw [Bool.not_eq_false] at hb
  have hAgain := skipBlank_skipBlank rest
  rw [h] at hAgain
  simp only [skipBlank, List.dropWhile_cons_of_pos hb] at hAgain
  have := (List.dropWhile_suffix (l := left) isBlankByte).length_le
  rw [hAgain, List.length_cons] at this
  omega

namespace Alike

theorem refl (rest : List UInt8) : Alike rest rest := by
  induction rest with
  | nil => exact .blank rfl rfl
  | cons b _ ih => exact .cons b ih

theorem symm (h : Alike rest rest') : Alike rest' rest := by
  induction h with
  | cons b _ ih => exact .cons b ih
  | blank hr hr' => exact .blank hr' hr

theorem append_blank (rest : List UInt8) {blanks : List UInt8} (h : Json.skipBlank blanks = []) :
    Alike (rest ++ blanks) rest := by
  induction rest with
  | nil => exact .blank h rfl
  | cons b rest ih => exact .cons b ih

theorem skipBlank (h : Alike rest rest') : Alike (skipBlank rest) (skipBlank rest') := by
  induction h with
  | cons b h ih =>
    cases hb : isBlankByte b with
    | true => simpa [Json.skipBlank, hb] using ih
    | false =>
      rw [skipBlank_of_not_blank hb, skipBlank_of_not_blank hb]
      exact .cons b h
  | blank hr hr' =>
    rw [hr, hr']
    exact .blank rfl rfl

theorem exists_cons {b : UInt8} (hb : isBlankByte b = false) (h : Alike (b :: left) rest') :
    ∃ left', rest' = b :: left' ∧ Alike left left' := by
  cases h with
  | cons b h => exact ⟨_, rfl, h⟩
  | blank hr =>
    rw [skipBlank_of_not_blank hb] at hr
    cases hr

theorem exists_append {b : UInt8} {front : List UInt8} (hb : isBlankByte b = false)
    (h : Alike (front ++ b :: left) rest') :
    ∃ left', rest' = front ++ b :: left' ∧ Alike left left' := by
  induction front generalizing rest' with
  | nil => exact exists_cons hb h
  | cons a front ih =>
    cases h with
    | cons _ h =>
      obtain ⟨left', rfl, hLeft⟩ := ih h
      exact ⟨left', rfl, hLeft⟩
    | blank hr =>
      have := skipBlank_eq_nil_iff.1 hr b (by simp)
      rw [hb] at this
      cases this

/-- A test that no blank passes comes out alike on the next bytes. -/
theorem head_any {q : UInt8 → Bool} (hq : ∀ b, isBlankByte b = true → q b = false)
    (h : Alike rest rest') : rest.head?.any q = rest'.head?.any q := by
  have hNone {rest : List UInt8} (hr : Json.skipBlank rest = []) : rest.head?.any q = false := by
    cases rest with
    | nil => rfl
    | cons b rest => simpa using hq b (skipBlank_eq_nil_iff.1 hr b (by simp))
  cases h with
  | cons => rfl
  | blank hr hr' => rw [hNone hr, hNone hr']

theorem skipBlank_eq {b : UInt8} (h : Alike (Json.skipBlank rest) (Json.skipBlank rest'))
    (hb : Json.skipBlank rest = b :: left) :
    ∃ left', Json.skipBlank rest' = b :: left' ∧ Alike left left' :=
  exists_cons (not_blank_of_skipBlank_eq hb) (hb ▸ h)

theorem skipBlank_eq_nil (h : Alike (Json.skipBlank rest) (Json.skipBlank rest'))
    (hEnd : Json.skipBlank rest = []) : Json.skipBlank rest' = [] := by
  rw [hEnd] at h
  cases h with
  | blank _ hr' => rwa [skipBlank_skipBlank] at hr'

end Alike

theorem readWord_eq_ok_iff {letters : List UInt8} :
    readWord letters rest = .ok left ↔ rest = letters ++ left := by
  constructor
  · intro h
    fun_induction readWord letters rest with
    | case1 =>
      cases h
      rfl
    | case2 => cases h
    | case3 letters b rest ih => rw [ih h, List.cons_append]
    | case4 => cases h
  · rintro rfl
    induction letters with
    | nil => rfl
    | cons letter letters ih => simpa [readWord] using ih

theorem Alike.of_readWord {letters : List UInt8} (hWord : ∀ b ∈ letters, isWordByte b = true)
    (hr : Alike rest rest') (h : readWord letters rest = .ok left) :
    ∃ left', readWord letters rest' = .ok left' ∧ Alike left left' := by
  rcases List.eq_nil_or_concat letters with rfl | ⟨front, b, rfl⟩
  · cases h
    exact ⟨rest', rfl, hr⟩
  · have hb : isBlankByte b = false := not_isBlankByte_of_isWordByte (hWord b (by simp))
    rw [readWord_eq_ok_iff] at h
    obtain ⟨left', rfl, hLeft⟩ := exists_append hb (by simpa [h] using hr)
    exact ⟨left', readWord_eq_ok_iff.2 (by simp), hLeft⟩

theorem Quoted.eq_concat {taken spelt : List UInt8} (h : Quoted taken spelt) :
    ∃ front, taken = front ++ [byte '"'] := by
  induction h with
  | close => exact ⟨[], rfl⟩
  | @escape letters _ _ _ _ _ ih =>
    obtain ⟨front, rfl⟩ := ih
    exact ⟨byte '\\' :: (letters ++ front), by simp⟩
  | @plain b _ _ _ _ _ _ ih =>
    obtain ⟨front, rfl⟩ := ih
    exact ⟨b :: front, rfl⟩

theorem Alike.of_readText {s : String} (hr : Alike rest rest')
    (h : readText rest = .ok (s, left)) :
    ∃ left', readText rest' = .ok (s, left') ∧ Alike left left' := by
  obtain ⟨taken, hTaken, rfl⟩ := readText_eq_ok_iff.1 h
  obtain ⟨front, rfl⟩ := hTaken.eq_concat
  rw [List.append_assoc] at hr
  obtain ⟨left', rfl, hLeft⟩ := exists_append (by decide) hr
  exact ⟨left', readText_eq_ok_iff.2 ⟨_, hTaken, by simp⟩, hLeft⟩

theorem not_isDigitByte_of_isBlankByte {b : UInt8} (h : isBlankByte b = true) :
    isDigitByte b = false := by
  by_contra hDigit
  rw [Bool.not_eq_false] at hDigit
  rw [not_isBlankByte_of_isWordByte (isWordByte_of_isDigitByte hDigit)] at h
  cases h

theorem Alike.of_spanDigits (h : Alike rest rest') :
    (spanDigits rest').1 = (spanDigits rest).1 ∧
      Alike (spanDigits rest).2 (spanDigits rest').2 := by
  have hBlank {rest : List UInt8} (hr : Json.skipBlank rest = []) :
      spanDigits rest = ([], rest) := by
    cases rest with
    | nil => rfl
    | cons b rest =>
      have hDigit := not_isDigitByte_of_isBlankByte (skipBlank_eq_nil_iff.1 hr b (by simp))
      simp [Json.spanDigits, hDigit]
  induction h with
  | cons b h ih =>
    cases hDigit : isDigitByte b with
    | true => simpa [Json.spanDigits, hDigit] using ih
    | false => simpa [Json.spanDigits, hDigit] using Alike.cons b h
  | blank hr hr' =>
    rw [hBlank hr, hBlank hr']
    exact ⟨rfl, .blank hr hr'⟩

theorem readWhole_zero {rest : List UInt8} : readWhole (byte '0' :: rest) =
    if rest.head?.any isDigitByte then .error (.ahead .invalidNumber rest)
    else .ok ([0], rest) := by
  have hZero : isDigitByte (byte '0') = true := by decide
  cases rest with
  | nil => simp [readWhole, hZero]
  | cons b rest =>
    simp [readWhole, hZero]
    rfl

theorem Alike.of_readWhole {digits : List Nat} (hr : Alike rest rest')
    (h : readWhole rest = .ok (digits, left)) :
    ∃ left', readWhole rest' = .ok (digits, left') ∧ Alike left left' := by
  cases rest with
  | nil => cases h
  | cons b rest =>
    have hDigit : isDigitByte b = true := by
      by_contra hNot
      simp [Json.readWhole, hNot] at h
    obtain ⟨behind, rfl, hBehind⟩ :=
      exists_cons (not_isBlankByte_of_isWordByte (isWordByte_of_isDigitByte hDigit)) hr
    by_cases hZero : b = byte '0'
    · subst hZero
      rw [readWhole_zero] at h ⊢
      rw [← hBehind.head_any fun _ => not_isDigitByte_of_isBlankByte]
      split at h
      · cases h
      · next hNot =>
        cases h
        exact ⟨behind, if_neg hNot, hBehind⟩
    · obtain ⟨hDigits, hLeft⟩ := hBehind.of_spanDigits
      simp only [Json.readWhole, hDigit, not_true_eq_false, if_false, if_neg hZero] at h ⊢
      cases h
      exact ⟨_, by rw [hDigits], hLeft⟩

theorem readFraction_of_head (h : rest.head?.any (· == byte '.') = false) :
    readFraction rest = .ok ([], rest) := by
  cases rest with
  | nil => rfl
  | cons b rest =>
    have hb : b ≠ byte '.' := by simpa using h
    simp [readFraction, hb]

theorem readFraction_point {digits : List Nat} :
    readFraction (byte '.' :: rest) = .ok (digits, left) ↔
      spanDigits rest = (digits, left) ∧ digits ≠ [] := by
  rw [readFraction, if_pos rfl]
  constructor
  · intro h
    split at h
    · cases h
    · cases h
    · next hNone hSome hSpan =>
      cases h
      refine ⟨hSpan, ?_⟩
      rintro rfl
      exact hSome rfl
  · rintro ⟨hSpan, hDigits⟩
    rw [hSpan]
    cases digits with
    | nil => exact absurd rfl hDigits
    | cons => rfl

theorem exists_of_head_any {q : UInt8 → Bool} (h : rest.head?.any q = true) :
    ∃ b behind, rest = b :: behind ∧ q b = true := by
  cases rest with
  | nil => cases h
  | cons b behind => exact ⟨b, behind, rfl, h⟩

theorem ne_of_isBlankByte {b : UInt8} (h : isBlankByte b = true) {c : Char}
    (hc : isBlankByte (byte c) = false) : (b == byte c) = false := by
  rw [beq_eq_false_iff_ne]
  rintro rfl
  rw [h] at hc
  cases hc

theorem Alike.of_readFraction {digits : List Nat} (hr : Alike rest rest')
    (h : readFraction rest = .ok (digits, left)) :
    ∃ left', readFraction rest' = .ok (digits, left') ∧ Alike left left' := by
  have hHead := hr.head_any (q := (· == byte '.')) fun _ hb => ne_of_isBlankByte hb (by decide)
  cases hPoint : rest.head?.any (· == byte '.') with
  | false =>
    rw [readFraction_of_head hPoint] at h
    rw [hPoint] at hHead
    cases h
    exact ⟨rest', readFraction_of_head hHead.symm, hr⟩
  | true =>
    obtain ⟨b, behind, rfl, hb⟩ := exists_of_head_any hPoint
    obtain rfl : b = byte '.' := by simpa using hb
    obtain ⟨behind', rfl, hBehind⟩ := exists_cons (by decide) hr
    obtain ⟨hSpan, hDigits⟩ := readFraction_point.1 h
    obtain ⟨hSame, hLeft⟩ := hBehind.of_spanDigits
    rw [hSpan] at hSame hLeft
    exact ⟨(spanDigits behind').2, readFraction_point.2 ⟨Prod.ext hSame rfl, hDigits⟩, hLeft⟩

theorem Alike.of_readSign (hr : Alike rest rest') :
    (readSign rest').1 = (readSign rest).1 ∧ Alike (readSign rest).2 (readSign rest').2 := by
  have hNone {rest : List UInt8}
      (hHead : rest.head?.any (fun b => b == byte '-' || b == byte '+') = false) :
      readSign rest = (false, rest) := by
    cases rest with
    | nil => rfl
    | cons b rest =>
      simp only [List.head?_cons, Option.any_some, Bool.or_eq_false_iff,
        beq_eq_false_iff_ne] at hHead
      simp [Json.readSign, hHead]
  have hHead := hr.head_any (q := fun b => b == byte '-' || b == byte '+') fun _ hb => by
    rw [ne_of_isBlankByte hb (by decide), ne_of_isBlankByte hb (by decide), Bool.or_self]
  cases hSign : rest.head?.any fun b => b == byte '-' || b == byte '+' with
  | false =>
    rw [hNone hSign, hNone (hHead ▸ hSign)]
    exact ⟨rfl, hr⟩
  | true =>
    obtain ⟨b, behind, rfl, hb⟩ := exists_of_head_any hSign
    have hb : b = byte '-' ∨ b = byte '+' := by simpa using hb
    obtain ⟨behind', rfl, hBehind⟩ := exists_cons (by rcases hb with rfl | rfl <;> decide) hr
    rcases hb with rfl | rfl
    · exact ⟨rfl, hBehind⟩
    · exact ⟨rfl, hBehind⟩

theorem readExponent_of_head
    (h : rest.head?.any (fun b => b == byte 'e' || b == byte 'E') = false) :
    readExponent rest = .ok (none, rest) := by
  cases rest with
  | nil => rfl
  | cons b rest =>
    have hb : ¬ (b = byte 'e' ∨ b = byte 'E') := by simpa using h
    simp [readExponent, hb]

theorem readExponent_letter {b : UInt8} (hb : b = byte 'e' ∨ b = byte 'E')
    {exponent : Option (Bool × List Nat)} :
    readExponent (b :: rest) = .ok (exponent, left) ↔
      ∃ d behind, (readSign rest).2 = d :: behind ∧ isDigitByte d = true ∧
        exponent = some ((readSign rest).1, digitOf d :: (spanDigits behind).1) ∧
        left = (spanDigits behind).2 := by
  rw [readExponent, if_pos hb]
  constructor
  · intro h
    split at h
    next negative behind hSign =>
    split at h
    · cases h
    next d behind =>
    split at h
    · next hDigit =>
      cases h
      exact ⟨d, behind, by rw [hSign], hDigit, by rw [hSign]; rfl, rfl⟩
    · cases h
  · rintro ⟨d, behind, hSign, hDigit, rfl, rfl⟩
    split
    next hPair =>
    rw [hPair] at hSign ⊢
    simp only at hSign
    subst hSign
    simp [hDigit]

theorem Alike.of_readExponent {exponent : Option (Bool × List Nat)} (hr : Alike rest rest')
    (h : readExponent rest = .ok (exponent, left)) :
    ∃ left', readExponent rest' = .ok (exponent, left') ∧ Alike left left' := by
  have hHead := hr.head_any (q := fun b => b == byte 'e' || b == byte 'E') fun _ hb => by
    rw [ne_of_isBlankByte hb (by decide), ne_of_isBlankByte hb (by decide), Bool.or_self]
  cases hLetter : rest.head?.any fun b => b == byte 'e' || b == byte 'E' with
  | false =>
    rw [readExponent_of_head hLetter] at h
    cases h
    exact ⟨rest', readExponent_of_head (hHead ▸ hLetter), hr⟩
  | true =>
    obtain ⟨b, behind, rfl, hb⟩ := exists_of_head_any hLetter
    have hb : b = byte 'e' ∨ b = byte 'E' := by simpa using hb
    obtain ⟨behind', rfl, hBehind⟩ := exists_cons (by rcases hb with rfl | rfl <;> decide) hr
    obtain ⟨d, digits, hSign, hDigit, rfl, rfl⟩ := (readExponent_letter hb).1 h
    obtain ⟨hSame, hDigits⟩ := hBehind.of_readSign
    rw [hSign] at hDigits
    obtain ⟨digits', hSign', hTail⟩ :=
      exists_cons (not_isBlankByte_of_isWordByte (isWordByte_of_isDigitByte hDigit)) hDigits
    obtain ⟨hSpan, hLeft⟩ := hTail.of_spanDigits
    exact ⟨_, (readExponent_letter hb).2 ⟨d, digits', hSign', hDigit, by rw [hSame, hSpan], rfl⟩,
      hLeft⟩

theorem readNumber_of_parts {negative : Bool} {n : Number} {whole fraction : List Nat}
    {exponent : Option (Bool × List Nat)} {behindWhole behindFraction : List UInt8}
    (hw : readWhole rest = .ok (whole, behindWhole))
    (hf : readFraction behindWhole = .ok (fraction, behindFraction))
    (he : readExponent behindFraction = .ok (exponent, left))
    (hv : (⟨negative, whole, fraction, exponent⟩ : Numeral).value = .ok n) :
    readNumber negative rest = .ok (n, left) := by
  simp only [readNumber, readNumeral, hw, hf, he, hv]

theorem Alike.of_readNumber {negative : Bool} {n : Number} (hr : Alike rest rest')
    (h : readNumber negative rest = .ok (n, left)) :
    ∃ left', readNumber negative rest' = .ok (n, left') ∧ Alike left left' := by
  obtain ⟨whole, fraction, exponent, _, _, hw, hf, he, hv⟩ := readNumber_parts h
  obtain ⟨behind, hw', hBehind⟩ := hr.of_readWhole hw
  obtain ⟨behind', hf', hBehind'⟩ := hBehind.of_readFraction hf
  obtain ⟨left', he', hLeft⟩ := hBehind'.of_readExponent he
  exact ⟨left', readNumber_of_parts hw' hf' he' hv, hLeft⟩

theorem Alike.of_scalar {v : Value} (hr : Alike rest rest') (h : Scalar rest v left) :
    ∃ left', Scalar rest' v left' ∧ Alike left left' := by
  have hWord (letters : String) (b : UInt8) (behind : List UInt8) (hb : isBlankByte b = false)
      (hLetters : ∀ b ∈ Text.Utf8.encode letters, isWordByte b = true)
      (hr : Alike (b :: behind) rest')
      (hw : readWord (Text.Utf8.encode letters) behind = .ok left) :
      ∃ behind' left', rest' = b :: behind' ∧
        readWord (Text.Utf8.encode letters) behind' = .ok left' ∧ Alike left left' := by
    obtain ⟨behind', rfl, hBehind⟩ := exists_cons hb hr
    obtain ⟨left', hw', hLeft⟩ := hBehind.of_readWord hLetters hw
    exact ⟨behind', left', rfl, hw', hLeft⟩
  cases h with
  | null hw =>
    obtain ⟨_, left', rfl, hw', hLeft⟩ := hWord _ _ _ (by decide) (by decide +kernel) hr hw
    exact ⟨left', .null hw', hLeft⟩
  | yes hw =>
    obtain ⟨_, left', rfl, hw', hLeft⟩ := hWord _ _ _ (by decide) (by decide +kernel) hr hw
    exact ⟨left', .yes hw', hLeft⟩
  | no hw =>
    obtain ⟨_, left', rfl, hw', hLeft⟩ := hWord _ _ _ (by decide) (by decide +kernel) hr hw
    exact ⟨left', .no hw', hLeft⟩
  | negative hn =>
    obtain ⟨behind', rfl, hBehind⟩ := exists_cons (by decide) hr
    obtain ⟨left', hn', hLeft⟩ := hBehind.of_readNumber hn
    exact ⟨left', .negative hn', hLeft⟩
  | @number b _ _ _ hDigit hn =>
    obtain ⟨behind', rfl, -⟩ :=
      exists_cons (not_isBlankByte_of_isWordByte (isWordByte_of_isDigitByte hDigit)) hr
    obtain ⟨left', hn', hLeft⟩ := hr.of_readNumber hn
    exact ⟨left', .number hDigit hn', hLeft⟩
  | text ht =>
    obtain ⟨behind', rfl, hBehind⟩ := exists_cons (by decide) hr
    obtain ⟨left', ht', hLeft⟩ := hBehind.of_readText ht
    exact ⟨left', .text ht', hLeft⟩

theorem Alike.of_key {key : String} (hr : Alike (Json.skipBlank rest) (Json.skipBlank rest'))
    (h : Key rest key left) : ∃ left', Key rest' key left' ∧ Alike left left' := by
  obtain ⟨hq, ht, hb⟩ := h
  obtain ⟨quoted', hq', hQuoted⟩ := hr.skipBlank_eq hq
  obtain ⟨behind', ht', hBehind⟩ := hQuoted.of_readText ht
  obtain ⟨left', hb', hLeft⟩ := hBehind.skipBlank.skipBlank_eq hb
  exact ⟨left', ⟨hq', ht', hb'⟩, hLeft⟩

inductive Frame.Alike : Frame → Frame → Prop
  | array (items : List Value) : Frame.Alike (.array items) (.array items)
  | object (fields : List (String × Value)) (key : String) :
      Frame.Alike (.object fields key) (.object fields key)
  | embedded {text text' resume resume' : List UInt8} : Json.Alike resume resume' →
      Frame.Alike (.embedded text resume) (.embedded text' resume')

structure State.Alike (s t : State) : Prop where
  frames : List.Forall₂ Frame.Alike s.frames t.frames
  phase : t.phase = s.phase
  rest : Json.Alike (skipBlank s.rest) (skipBlank t.rest)

inductive Progress.Alike : Progress → Progress → Prop
  | running {s t : State} : s.Alike t → Progress.Alike (.running s) (.running t)
  | finished (v : Value) : Progress.Alike (.finished v) (.finished v)

variable {s s' t : State} {p : Progress}

theorem State.Alike.isFull_eq (h : s.Alike t) : t.isFull = s.isFull := by
  have hKinds {frames frames' : List Frame} (h : List.Forall₂ Frame.Alike frames frames') :
      frames'.map Frame.isEmbedded = frames.map Frame.isEmbedded := by
    induction h with
    | nil => rfl
    | cons hf _ ih => cases hf <;> simp [ih, Frame.isEmbedded]
  have hFull (s : State) : s.isFull = ((s.frames.map Frame.isEmbedded).any id &&
      embeddedLevels ≤ ((s.frames.map Frame.isEmbedded).takeWhile (! ·)).length) := by
    simp only [State.isFull, State.levels, List.takeWhile_map, List.any_map, List.length_map]
    rfl
  rw [hFull, hFull, hKinds h.frames]

theorem State.Alike.frames_cons {f : Frame} {frames : List Frame} (h : s.Alike t)
    (hf : s.frames = f :: frames) :
    ∃ f' frames', t.frames = f' :: frames' ∧ f.Alike f' ∧
      List.Forall₂ Frame.Alike frames frames' := by
  have hFrames := h.frames
  rw [hf] at hFrames
  obtain ⟨f', frames', hHead, hTail, hf'⟩ := List.forall₂_cons_left_iff.1 hFrames
  exact ⟨f', frames', hf', hHead, hTail⟩

theorem Within.alike (h : Within s s') (hs : s.Alike t) : ∃ t', Within t t' ∧ s'.Alike t' := by
  have hFull := hs.isFull_eq
  cases h with
  | scalar hp hScalar =>
    obtain ⟨left', hScalar', hLeft⟩ := hs.rest.of_scalar hScalar
    exact ⟨_, .scalar (hs.phase.trans hp) hScalar', hs.frames, rfl, hLeft.skipBlank⟩
  | emptyArray hp hb hOpen hb' =>
    obtain ⟨opened', hOpened, hAlike⟩ := hs.rest.skipBlank_eq hb
    obtain ⟨left', hLeft', hLeft⟩ := hAlike.skipBlank.skipBlank_eq hb'
    exact ⟨_, .emptyArray (hs.phase.trans hp) hOpened (hFull.trans hOpen) hLeft', hs.frames, rfl,
      hLeft.skipBlank⟩
  | @openArray b _ _ hp hb hOpen hb' hne =>
    obtain ⟨opened', hOpened, hAlike⟩ := hs.rest.skipBlank_eq hb
    obtain ⟨left', hLeft', hLeft⟩ := hAlike.skipBlank.skipBlank_eq hb'
    exact ⟨_, .openArray (hs.phase.trans hp) hOpened (hFull.trans hOpen) hLeft' hne,
      .cons (.array []) hs.frames, rfl, (hLeft.cons b).skipBlank⟩
  | emptyObject hp hb hOpen hb' =>
    obtain ⟨opened', hOpened, hAlike⟩ := hs.rest.skipBlank_eq hb
    obtain ⟨left', hLeft', hLeft⟩ := hAlike.skipBlank.skipBlank_eq hb'
    exact ⟨_, .emptyObject (hs.phase.trans hp) hOpened (hFull.trans hOpen) hLeft', hs.frames, rfl,
      hLeft.skipBlank⟩
  | openObject hp hb hOpen hKey hne =>
    obtain ⟨opened', hOpened, hAlike⟩ := hs.rest.skipBlank_eq hb
    obtain ⟨left', hKey', hLeft⟩ := hAlike.skipBlank.of_key hKey
    exact ⟨_, .openObject (hs.phase.trans hp) hOpened (hFull.trans hOpen) hKey' hne,
      .cons (.object [] _) hs.frames, rfl, hLeft.skipBlank⟩
  | @nextItem _ _ _ b _ _ hp hf hb hb' hne =>
    obtain ⟨f', frames', hf', hFrame, hFrames⟩ := hs.frames_cons hf
    cases hFrame
    obtain ⟨behind', hBehind, hAlike⟩ := hs.rest.skipBlank_eq hb
    obtain ⟨left', hLeft', hLeft⟩ := hAlike.skipBlank.skipBlank_eq hb'
    exact ⟨_, .nextItem (hs.phase.trans hp) hf' hBehind hLeft' hne, .cons (.array _) hFrames, rfl,
      (hLeft.cons b).skipBlank⟩
  | closeArray hp hf hb =>
    obtain ⟨f', frames', hf', hFrame, hFrames⟩ := hs.frames_cons hf
    cases hFrame
    obtain ⟨left', hLeft', hLeft⟩ := hs.rest.skipBlank_eq hb
    exact ⟨_, .closeArray (hs.phase.trans hp) hf' hLeft', hFrames, rfl, hLeft.skipBlank⟩
  | nextMember hp hf hb hKey =>
    obtain ⟨f', frames', hf', hFrame, hFrames⟩ := hs.frames_cons hf
    cases hFrame
    obtain ⟨behind', hBehind, hAlike⟩ := hs.rest.skipBlank_eq hb
    obtain ⟨left', hKey', hLeft⟩ := hAlike.skipBlank.of_key hKey
    exact ⟨_, .nextMember (hs.phase.trans hp) hf' hBehind hKey', .cons (.object _ _) hFrames, rfl,
      hLeft.skipBlank⟩
  | closeObject hp hf hb =>
    obtain ⟨f', frames', hf', hFrame, hFrames⟩ := hs.frames_cons hf
    cases hFrame
    obtain ⟨left', hLeft', hLeft⟩ := hs.rest.skipBlank_eq hb
    exact ⟨_, .closeObject (hs.phase.trans hp) hf' hLeft', hFrames, rfl, hLeft.skipBlank⟩

theorem Moves.alike (h : Moves s p) (hs : s.Alike t) : ∃ p', Moves t p' ∧ p.Alike p' := by
  cases h with
  | within h =>
    obtain ⟨t', ht, hAlike⟩ := h.alike hs
    exact ⟨_, .within ht, .running hAlike⟩
  | enter hp hb hOpen hKey hq ht =>
    obtain ⟨opened', hOpened, hAlike⟩ := hs.rest.skipBlank_eq hb
    obtain ⟨behind', hKey', hBehind⟩ := hAlike.skipBlank.of_key hKey
    obtain ⟨quoted', hq', hQuoted⟩ := hBehind.skipBlank.skipBlank_eq hq
    obtain ⟨resume', ht', hResume⟩ := hQuoted.of_readText ht
    exact ⟨_, .enter (hs.phase.trans hp) hOpened (hs.isFull_eq.trans hOpen) hKey' hq' ht',
      .running ⟨.cons (.embedded hResume) hs.frames, rfl, .refl _⟩⟩
  | leave hp hf hEnd hb =>
    obtain ⟨f', frames', hf', hFrame, hFrames⟩ := hs.frames_cons hf
    cases hFrame with
    | embedded hResume =>
      obtain ⟨left', hLeft', hLeft⟩ := hResume.skipBlank.skipBlank_eq hb
      exact ⟨_, .leave (hs.phase.trans hp) hf' (hs.rest.skipBlank_eq_nil hEnd) hLeft',
        .running ⟨hFrames, rfl, hLeft.skipBlank⟩⟩
  | finish hp hf hEnd =>
    have hNone : t.frames = [] := by
      have hFrames := hs.frames
      rw [hf] at hFrames
      exact List.forall₂_nil_left_iff.1 hFrames
    exact ⟨_, .finish (hs.phase.trans hp) hNone (hs.rest.skipBlank_eq_nil hEnd), .finished _⟩

theorem State.Alike.run_eq_ok {v : Value} (hs : s.Alike t) (h : s.run = .ok v) : t.run = .ok v := by
  fun_induction State.run s generalizing t with
  | case1 => cases h
  | case2 s v' hStep =>
    cases h
    obtain ⟨p', ht, hAlike⟩ := (moves_of_step hStep).alike hs
    cases hAlike
    exact ht.run_eq_ok
  | case3 s s' hStep ih =>
    obtain ⟨p', ht, hAlike⟩ := (moves_of_step hStep).alike hs
    cases hAlike with
    | running hNext => exact ht.run_eq.trans (ih hNext h)

theorem skipBlank_rtakeWhile (rest : List UInt8) : skipBlank (rest.rtakeWhile isBlankByte) = [] :=
  skipBlank_eq_nil_iff.2 fun _ hb => List.mem_rtakeWhile_imp hb

theorem alike_trimBlank (text : List UInt8) :
    Alike (skipBlank text) (skipBlank (trimBlank text)) := by
  have hAppend := Alike.append_blank (trimBlank text) (skipBlank_rtakeWhile (skipBlank text))
  rw [trimBlank, List.rdropWhile_append_rtakeWhile, ← trimBlank] at hAppend
  simpa [skipBlank_skipBlank] using hAppend.skipBlank

/-- Blanks around a document make no difference to what is read. -/
theorem read_trimBlank_eq_ok_iff {text : List UInt8} {v : Value} :
    read (trimBlank text) = .ok v ↔ read text = .ok v := by
  have hAlike : (State.initial text).Alike (.initial (trimBlank text)) :=
    ⟨.nil, rfl, alike_trimBlank text⟩
  have hAlike' : (State.initial (trimBlank text)).Alike (.initial text) :=
    ⟨.nil, rfl, (alike_trimBlank text).symm⟩
  exact ⟨hAlike'.run_eq_ok, hAlike.run_eq_ok⟩

/-- Only an opening bracket makes the deepest nesting deeper. -/
theorem deepest_foldl (d : Depth) {bytes : List UInt8}
    (h : ∀ b ∈ bytes, b ≠ byte '[' ∧ b ≠ byte '\x7b') :
    (bytes.foldl Depth.pass d).deepest = d.deepest := by
  induction bytes generalizing d with
  | nil => rfl
  | cons b bytes ih =>
    obtain ⟨⟨hArray, hObject⟩, hBytes⟩ := List.forall_mem_cons.mp h
    rw [List.foldl_cons, ih _ hBytes]
    obtain ⟨place, current, deepest⟩ := d
    cases place with
    | outside =>
      unfold Depth.pass
      simp only [hArray, hObject, or_self, if_false]
      split
      · rfl
      · split <;> rfl
    | inside =>
      unfold Depth.pass
      simp only
      split
      · rfl
      · split <;> rfl
    | escaped => rfl

theorem nestingDepth_append {text behind : List UInt8}
    (h : ∀ b ∈ behind, b ≠ byte '[' ∧ b ≠ byte '\x7b') :
    nestingDepth (text ++ behind) = nestingDepth text := by
  rw [nestingDepth, List.foldl_append, deepest_foldl _ h, nestingDepth]

theorem nestingDepth_trimBlank (text : List UInt8) :
    nestingDepth (trimBlank text) = nestingDepth text := by
  have hBlank : ∀ b ∈ (skipBlank text).rtakeWhile isBlankByte, b ≠ byte '[' ∧ b ≠ byte '\x7b' := by
    intro b hb
    have hb := List.mem_rtakeWhile_imp hb
    exact ⟨beq_eq_false_iff_ne.mp (ne_of_isBlankByte hb (by decide)),
      beq_eq_false_iff_ne.mp (ne_of_isBlankByte hb (by decide))⟩
  calc
    nestingDepth (trimBlank text) = _ := (nestingDepth_append hBlank).symm
    _ = nestingDepth (skipBlank text) := by
      rw [trimBlank, List.rdropWhile_append_rtakeWhile]
    _ = nestingDepth text := by
      rw [nestingDepth, nestingDepth, Depth.zero, ← foldl_pass_skipBlank rfl]

end SyntaxDrawing.Json

namespace SyntaxDrawing

open Json

/-- Blanks around a document make no difference to whether and as what it is read. -/
theorem readDocument_trimBlank_eq_ok_iff {text : List UInt8} {v : Value} :
    readDocument (trimBlank text) = .ok v ↔ readDocument text = .ok v := by
  rw [readDocument_eq_ok_iff, readDocument_eq_ok_iff, nestingDepth_trimBlank,
    read_trimBlank_eq_ok_iff]

end SyntaxDrawing
