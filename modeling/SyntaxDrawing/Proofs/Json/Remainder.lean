import SyntaxDrawing.Json.Scanner
import SyntaxDrawing.Proofs.Json.Lexeme

/-!
# What the scanner leaves

A scan leaves an end of what it was given, and the value it has passed ends in a byte that is no
blank. So the document that `scanDocument` relays is the text without the blanks around it.
-/

namespace SyntaxDrawing.Json

variable {rest rest' : List UInt8} {brackets : List Bracket} {s s' : Scan}

/-- What stands in front of the rest ends in a byte that is no blank. -/
def Takes (rest rest' : List UInt8) : Prop :=
  ∃ taken b, rest = taken ++ b :: rest' ∧ isBlankByte b = false

namespace Takes

theorem head {b : UInt8} (hb : isBlankByte b = false) (rest : List UInt8) :
    Takes (b :: rest) rest :=
  ⟨[], b, rfl, hb⟩

theorem of_suffix {behind : List UInt8} (hs : behind <:+ rest) (h : Takes behind rest') :
    Takes rest rest' := by
  obtain ⟨front, rfl⟩ := hs
  obtain ⟨taken, b, rfl, hb⟩ := h
  exact ⟨front ++ taken, b, by simp, hb⟩

theorem cons (b : UInt8) (h : Takes rest rest') : Takes (b :: rest) rest' :=
  h.of_suffix (List.suffix_cons b rest)

theorem suffix (h : Takes rest rest') : rest' <:+ rest := by
  obtain ⟨taken, b, rfl, -⟩ := h
  exact ⟨taken ++ [b], by simp⟩

theorem of_passes {b : UInt8} (hb : isBlankByte b = false) (h : Passes isWordByte rest rest') :
    Takes (b :: rest) rest' := by
  obtain ⟨taken, rfl, hTaken⟩ := h
  rcases List.eq_nil_or_concat taken with rfl | ⟨front, last, rfl⟩
  · exact head hb rest'
  · have hLast := not_isBlankByte_of_isWordByte (hTaken last (by simp))
    exact ⟨b :: front, last, by simp, hLast⟩

end Takes

theorem skipBlank_suffix (rest : List UInt8) : skipBlank rest <:+ rest :=
  List.dropWhile_suffix _

theorem suffix_of_skipBlank_eq {b : UInt8} (h : skipBlank rest = b :: rest') : rest' <:+ rest :=
  (List.suffix_cons b rest').trans (h ▸ skipBlank_suffix rest)

theorem passes_skipDigits (rest : List UInt8) : Passes isWordByte rest (skipDigits rest) :=
  .dropWhile (fun _ => isWordByte_of_isDigitByte) rest

theorem passes_scanDigits (h : scanDigits rest = .ok rest') : Passes isWordByte rest rest' := by
  unfold scanDigits at h
  split at h
  · cases h
  split at h
  · next hDigit =>
    cases h
    exact .cons (isWordByte_of_isDigitByte hDigit) (passes_skipDigits _)
  · cases h

theorem passes_scanExponent (h : scanExponent rest = .ok rest') : Passes isWordByte rest rest' := by
  unfold scanExponent at h
  split at h
  · cases h
    exact .refl _
  split at h
  · next b rest he =>
    refine .cons (by rcases he with rfl | rfl <;> decide) ?_
    split at h
    · cases h
    split at h
    · next hSign => exact .cons (by rcases hSign with rfl | rfl <;> decide) (passes_scanDigits h)
    · exact passes_scanDigits h
  · cases h
    exact .refl _

theorem passes_scanFraction (h : scanFraction rest = .ok rest') : Passes isWordByte rest rest' := by
  unfold scanFraction at h
  split at h
  · cases h
    exact .refl _
  split at h
  · next hPoint =>
    subst hPoint
    refine .cons (by decide) ?_
    split at h
    · cases h
    split at h
    · next hDigit =>
      exact .cons (isWordByte_of_isDigitByte hDigit)
        ((passes_skipDigits _).trans (passes_scanExponent h))
    · cases h
  · exact passes_scanExponent h

theorem takes_scanNumber (h : scanNumber rest = .ok rest') : Takes rest rest' := by
  unfold scanNumber at h
  split at h
  · cases h
  split at h
  · next hZero =>
    subst hZero
    refine .of_passes (by decide) ?_
    split at h
    · cases h
      exact .refl _
    split at h
    · cases h
    · exact passes_scanFraction h
  split at h
  · next hDigit =>
    exact .of_passes (not_isBlankByte_of_isWordByte (isWordByte_of_isDigitByte hDigit))
      ((passes_skipDigits _).trans (passes_scanFraction h))
  · cases h

theorem scanEscape_suffix (h : scanEscape rest = .ok rest') : rest' <:+ rest := by
  unfold scanEscape at h
  split at h
  · cases h
  next b rest =>
  refine List.IsSuffix.trans ?_ (List.suffix_cons _ _)
  split at h
  · cases h
    exact List.suffix_refl _
  split at h
  · cases hx : readHex rest with
    | error f =>
      rw [hx] at h
      cases h
    | ok p =>
      rw [hx] at h
      cases h
      obtain ⟨digits, -, hDigits⟩ := readHex_eq_ok hx
      exact ⟨digits, hDigits.symm⟩
  · cases h

theorem takes_scanString (h : scanString rest = .ok rest') : Takes rest rest' := by
  fun_induction scanString rest with
  | case1 => cases h
  | case2 =>
    cases h
    exact .head (by decide) _
  | case3 => cases h
  | case4 rest behind he _ ih => exact ((ih h).of_suffix (scanEscape_suffix he)).cons _
  | case5 => cases h
  | case6 b rest _ _ _ ih => exact (ih h).cons b

/-- What is left to a scan that has come from a text: if no value is awaited, one has just been
passed. -/
structure Scan.Follows (s : Scan) (text : List UInt8) : Prop where
  suffix : s.rest <:+ text
  takes : s.awaiting = false → Takes text s.rest

theorem Scan.Follows.of_suffix (h : s.Follows rest') (hs : rest' <:+ rest) : s.Follows rest :=
  ⟨h.suffix.trans hs, fun ha => (h.takes ha).of_suffix hs⟩

theorem Scan.follows_of_passed (h : Scan.passed brackets rest' = .ok (.running s))
    (hTakes : Takes rest rest') : s.Follows rest := by
  cases h
  exact ⟨hTakes.suffix, fun _ => hTakes⟩

theorem Scan.follows_of_key (h : Scan.key brackets rest = .ok (.running s)) : s.Follows rest := by
  unfold Scan.key at h
  split at h
  · cases h
  next hb =>
  split at h
  · split at h
    · cases h
    next hs =>
    split at h
    · cases h
    next hc =>
    split at h
    · cases h
      refine ⟨?_, fun ha => by cases ha⟩
      exact ((suffix_of_skipBlank_eq hc).trans (takes_scanString hs).suffix).trans
        (suffix_of_skipBlank_eq hb)
    · cases h
  · cases h

theorem Scan.follows_of_enter {bracket : Bracket}
    (h : Scan.enter bracket brackets rest = .ok (.running s)) : s.Follows rest := by
  unfold Scan.enter at h
  split at h
  · cases h
  · cases h
  · next hb =>
    split at h
    · next hc =>
      subst hc
      exact (Scan.follows_of_passed h (.head (by decide) _)).of_suffix (hb ▸ skipBlank_suffix rest)
    · cases h
      exact ⟨hb ▸ skipBlank_suffix rest, fun ha => by cases ha⟩
  · next hb =>
    split at h
    · next hc =>
      subst hc
      exact (Scan.follows_of_passed h (.head (by decide) _)).of_suffix (hb ▸ skipBlank_suffix rest)
    · exact (Scan.follows_of_key h).of_suffix (hb ▸ skipBlank_suffix rest)

theorem Scan.follows_of_word {letters : String} {b : UInt8} (hb : isBlankByte b = false)
    (hWord : ∀ b ∈ Text.Utf8.encode letters, isWordByte b = true)
    (h : Scan.word letters brackets rest = .ok (.running s)) : s.Follows (b :: rest) := by
  unfold Scan.word at h
  split at h
  · cases h
  next hw => exact Scan.follows_of_passed h (.of_passes hb (passes_readWord hWord hw))

theorem Scan.follows_of_number (h : Scan.number brackets rest = .ok (.running s)) :
    s.Follows rest := by
  unfold Scan.number at h
  split at h
  · cases h
  next hn => exact Scan.follows_of_passed h (takes_scanNumber hn)

theorem Scan.follows_of_begin (h : Scan.begin brackets rest = .ok (.running s)) :
    s.Follows rest := by
  unfold Scan.begin at h
  split at h
  · cases h
  next b behind hb =>
  have hHere : b :: behind <:+ rest := hb ▸ skipBlank_suffix rest
  have hBehind : behind <:+ rest := suffix_of_skipBlank_eq hb
  split at h
  · next hc => exact (Scan.follows_of_word (hc ▸ by decide) (by decide +kernel) h).of_suffix hHere
  split at h
  · next hc => exact (Scan.follows_of_word (hc ▸ by decide) (by decide +kernel) h).of_suffix hHere
  split at h
  · next hc => exact (Scan.follows_of_word (hc ▸ by decide) (by decide +kernel) h).of_suffix hHere
  split at h
  · exact (Scan.follows_of_number h).of_suffix hBehind
  split at h
  · exact (Scan.follows_of_number h).of_suffix hHere
  split at h
  · split at h
    · cases h
    next hs => exact (Scan.follows_of_passed h (takes_scanString hs)).of_suffix hBehind
  split at h
  · exact (Scan.follows_of_enter h).of_suffix hBehind
  split at h
  · exact (Scan.follows_of_enter h).of_suffix hBehind
  · cases h

theorem Scan.follows_of_after {bracket : Bracket}
    (h : Scan.after bracket brackets rest = .ok (.running s)) : s.Follows rest := by
  unfold Scan.after at h
  split at h
  · cases h
  · cases h
  · next hb =>
    split at h
    · cases h
      exact ⟨suffix_of_skipBlank_eq hb, fun ha => by cases ha⟩
    split at h
    · next hc =>
      subst hc
      exact (Scan.follows_of_passed h (.head (by decide) _)).of_suffix (hb ▸ skipBlank_suffix rest)
    · cases h
  · next hb =>
    split at h
    · exact (Scan.follows_of_key h).of_suffix (suffix_of_skipBlank_eq hb)
    split at h
    · next hc =>
      subst hc
      exact (Scan.follows_of_passed h (.head (by decide) _)).of_suffix (hb ▸ skipBlank_suffix rest)
    · cases h

theorem Scan.follows_of_step (h : s.step = .ok (.running s')) : s'.Follows s.rest := by
  unfold Scan.step at h
  split at h
  · exact Scan.follows_of_begin h
  split at h
  · cases h
  · exact Scan.follows_of_after h

theorem Scan.not_awaiting_of_finished (h : s.step = .ok (.finished rest)) : s.awaiting = false := by
  unfold Scan.step at h
  split at h
  · exact (h ▸ Scan.begin_goesOn _ _ : ScanProgress.goesOn (.ok (.finished rest))).elim
  · next ha => simpa using ha

theorem Scan.takes_of_run {text : List UInt8} (hs : s.Follows text) (h : s.run = .ok rest) :
    Takes text rest := by
  fun_induction Scan.run s with
  | case1 => cases h
  | case2 s rest' hStep =>
    cases h
    rw [Scan.step_finished hStep]
    exact hs.takes (Scan.not_awaiting_of_finished hStep)
  | case3 s s' hStep ih => exact ih ((Scan.follows_of_step hStep).of_suffix hs.suffix) h

theorem takes_scanValue (h : scanValue rest = .ok rest') : Takes rest rest' :=
  Scan.takes_of_run ⟨List.suffix_refl _, fun ha => by cases ha⟩ h

theorem skipBlank_eq_nil_iff : skipBlank rest = [] ↔ ∀ b ∈ rest, isBlankByte b = true :=
  List.dropWhile_eq_nil_iff

def trimBlank (text : List UInt8) : List UInt8 :=
  (skipBlank text).rdropWhile isBlankByte

theorem trimBlank_eq {text document blanks : List UInt8}
    (hStart : skipBlank text = document ++ blanks) (hTakes : Takes (document ++ blanks) blanks)
    (hBlank : skipBlank blanks = []) :
    trimBlank text = document := by
  obtain ⟨taken, b, hTaken, hb⟩ := hTakes
  have hBoth : document ++ blanks = (taken ++ [b]) ++ blanks := by simpa using hTaken
  have hDocument : document = taken ++ [b] := List.append_cancel_right hBoth
  rw [trimBlank, hStart, List.rdropWhile, List.reverse_append,
    List.dropWhile_append_of_pos (by simpa using skipBlank_eq_nil_iff.1 hBlank), hDocument]
  simp [hb]

/-- The scanner accepts a text that is a value between blanks, if the value is UTF-8, and relays the
value as it stands. -/
theorem scanDocument_eq_ok_iff {text : List UInt8} {d : String} :
    scanDocument text = .ok d ↔ ∃ blanks, scanValue (skipBlank text) = .ok blanks ∧
      skipBlank blanks = [] ∧ trimBlank text = Text.Utf8.encode d := by
  unfold scanDocument
  simp only
  cases hScan : scanValue (skipBlank text) with
  | error => simp
  | ok rest =>
    have hTakes := takes_scanValue hScan
    obtain ⟨document, hStart⟩ := hTakes.suffix
    have hTake : (skipBlank text).take ((skipBlank text).length - rest.length) = document := by
      simp [← hStart]
    have hTrim (hBlank : skipBlank rest = []) : trimBlank text = document :=
      trimBlank_eq hStart.symm (hStart ▸ hTakes) hBlank
    simp only [hTake, Except.ok.injEq, exists_eq_left']
    constructor
    · intro h
      split at h
      · cases h
      next hDecode =>
      split at h
      · next hBlank =>
        cases h
        exact ⟨hBlank, by rw [hTrim hBlank, Text.Utf8.encode_of_decode? hDecode]⟩
      · cases h
    · rintro ⟨hBlank, hd⟩
      rw [hTrim hBlank] at hd
      rw [hd, Text.Utf8.decode?_encode]
      simp only [hBlank]

end SyntaxDrawing.Json
