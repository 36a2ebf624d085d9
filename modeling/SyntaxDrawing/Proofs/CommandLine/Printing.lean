import SyntaxDrawing.CommandLine.Execution
import SyntaxDrawing.Proofs.Json.Written

/-!
# Printing a document

A printed document is read as the value that was printed, so printing it again changes nothing. This
includes what is too deep to be read, which is relayed: without the blanks at its end it nests as
deep as with them.
-/

namespace SyntaxDrawing

open Json

open Text.Utf8 (encode encode_append encode_eq_flatMap)

/-- What is read for a value that was written: the value, or the refusal of its nesting. -/
def readingOf (v : Value) : Except DocumentFailure Value :=
  if v.nesting ≤ levelLimit then .ok v else .error (.tooDeep v.nesting)

theorem nestingDepth_written {spacing : Spacing} (h : spacing.IsBlank) {v : Value}
    (hIntegers : v.HasShortIntegers) {blanks : String} (hBlank : IsBlank blanks) :
    nestingDepth (encode (v.write spacing ++ blanks)) = v.nesting := by
  rw [encode_append]
  exact (rises_spelling h hIntegers 0).nestingDepth_append (.of_isBlank hBlank)

theorem readDocument_written {spacing : Spacing} (h : spacing.IsBlank) {v : Value}
    (hKeys : v.HasDistinctKeys) (hIntegers : v.HasShortIntegers) (hSelf : v.StandsForItself)
    {blanks : String} (hBlank : IsBlank blanks) :
    readDocument (encode (v.write spacing ++ blanks)) = readingOf v := by
  have hDepth := nestingDepth_written h hIntegers hBlank
  unfold readingOf
  split
  · next hLimit =>
    refine readDocument_eq_ok_iff.mpr ⟨hDepth.symm ▸ hLimit, ?_⟩
    rw [encode_append]
    exact (spells_spelling h hKeys hIntegers hSelf 0).read_append (.of_isBlank hBlank)
  · next hDeep => exact readDocument_eq_tooDeep_iff.mpr ⟨hDepth.symm, Nat.lt_of_not_le hDeep⟩

theorem nesting_le_levelLimit {text : List UInt8} {v : Value} (h : readDocument text = .ok v)
    (hNone : ∀ s, Reached text s → s.embeddings = 0) : v.nesting ≤ levelLimit := by
  apply nesting_of_readDocument h
  intro s hs
  have hDepth := hs.depth_le
  rw [hNone s hs] at hDepth
  exact Nat.le_trans hDepth (readDocument_eq_ok_iff.mp h).1

namespace CommandLine

theorem isBlank_newline : IsBlank "\n" := by
  intro c hc
  obtain rfl : c = '\n' := by simpa using hc
  rfl

/-- Blanks hold no bracket, so what is relayed nests as what came. -/
theorem nestingDepth_trimEnd (text : String) :
    nestingDepth (encode (Text.trimEnd text)) = nestingDepth (encode text) := by
  have hBytes : encode text = encode (Text.trimEnd text) ++
      (text.toList.rtakeWhile Text.isBlank).flatMap String.utf8EncodeChar := by
    rw [Text.trimEnd, Text.Utf8.encode_ofList, ← List.flatMap_append]
    exact (encode_eq_flatMap text).trans
      (congrArg (List.flatMap String.utf8EncodeChar) List.rdropWhile_append_rtakeWhile.symm)
  rw [hBytes]
  symm
  apply nestingDepth_append
  intro b hMem
  obtain ⟨c, hc, hb⟩ := List.mem_flatMap.mp hMem
  have hBlank : Text.isBlank c = true := List.mem_rtakeWhile_imp hc
  have hNot {d : Char} (hd : d.toNat < 128) (hInk : Text.isBlank d = false) : b ≠ byte d := by
    rintro rfl
    rw [eq_of_byte_mem hd hb, hInk] at hBlank
    cases hBlank
  exact ⟨hNot (by decide) (by decide), hNot (by decide) (by decide)⟩

theorem toList_line (text : String) : (line text).toList = text.toList ++ ['\n'] := by
  rw [line, String.toList_append]
  rfl

theorem toList_trimEnd (text : String) :
    (Text.trimEnd text).toList = text.toList.rdropWhile Text.isBlank :=
  String.toList_ofList

theorem trimEnd_line_trimEnd (text : String) :
    Text.trimEnd (line (Text.trimEnd text)) = Text.trimEnd text := by
  apply String.toList_inj.mp
  rw [toList_trimEnd, toList_line, toList_trimEnd, List.rdropWhile_concat_pos _ _ _ (by decide),
    List.rdropWhile_idempotent]

/-- A text that ends with a bracket has no blanks at its end. -/
theorem trimEnd_line_indented {v : Value} (h : 0 < v.nesting) :
    Text.trimEnd (line v.indented) = v.indented := by
  have hLast : ∃ front last, v.indented.toList = front ++ [last] ∧ Text.isBlank last = false := by
    have hClosed {front text : String} (c : Char) (hText : text.toList = [c])
        (hc : Text.isBlank c = false) :
        ∃ chars last, (front ++ text).toList = chars ++ [last] ∧ Text.isBlank last = false :=
      ⟨front.toList, c, by rw [String.toList_append, hText], hc⟩
    rw [Value.indented, Value.write]
    cases v with
    | array items =>
      cases items with
      | nil => exact ⟨['['], ']', rfl, rfl⟩
      | cons => exact hClosed ']' rfl rfl
    | object fields =>
      cases fields with
      | nil => exact ⟨['\x7b'], '\x7d', rfl, rfl⟩
      | cons => exact hClosed '\x7d' rfl rfl
    | _ => exact absurd h (Nat.lt_irrefl 0)
  obtain ⟨front, last, hChars, hInk⟩ := hLast
  apply String.toList_inj.mp
  rw [toList_trimEnd, toList_line, List.rdropWhile_concat_pos _ _ _ (by decide), hChars,
    List.rdropWhile_concat_neg _ _ _ (by simp [hInk])]

variable {body printed : String} {v : Value}

theorem printDocument_of_read (h : readDocument (encode body) = .ok v) :
    printDocument body = .ok (line v.indented) := by
  rw [printDocument, h]

theorem printDocument_of_deep (h : levelLimit < nestingDepth (encode body)) :
    printDocument body = .ok (line (Text.trimEnd body)) := by
  rw [printDocument, readDocument_eq_tooDeep_iff.mpr ⟨rfl, h⟩]

theorem printDocument_eq_ok (h : printDocument body = .ok printed) :
    (∃ v, readDocument (encode body) = .ok v ∧ printed = line v.indented) ∨
      levelLimit < nestingDepth (encode body) ∧ printed = line (Text.trimEnd body) := by
  unfold printDocument at h
  split at h
  · next v hRead =>
    cases h
    exact .inl ⟨v, hRead, rfl⟩
  · next hDeep =>
    cases h
    obtain ⟨rfl, hLimit⟩ := readDocument_eq_tooDeep_iff.mp hDeep
    exact .inr ⟨hLimit, rfl⟩
  · cases h

theorem printDocument_relayed (h : levelLimit < nestingDepth (encode body)) :
    printDocument (line (Text.trimEnd body)) = .ok (line (Text.trimEnd body)) := by
  have hSame : nestingDepth (encode (line (Text.trimEnd body))) = nestingDepth (encode body) := by
    rw [← nestingDepth_trimEnd, trimEnd_line_trimEnd, nestingDepth_trimEnd]
  rw [printDocument_of_deep (hSame.symm ▸ h), trimEnd_line_trimEnd]

theorem readDocument_printed (h : readDocument (encode body) = .ok v)
    (hIntegers : v.HasShortIntegers) :
    readDocument (encode (line v.indented)) = readingOf v := by
  obtain ⟨hKeys, hSelf⟩ := Value.conditions_inherited.of_read (readDocument_eq_ok_iff.mp h).2
  exact readDocument_written isBlank_indented hKeys hIntegers hSelf isBlank_newline

theorem printDocument_printed (h : readDocument (encode body) = .ok v)
    (hIntegers : v.HasShortIntegers) :
    printDocument (line v.indented) = .ok (line v.indented) := by
  have hRead := readDocument_printed h hIntegers
  by_cases hLimit : v.nesting ≤ levelLimit
  · rw [readingOf, if_pos hLimit] at hRead
    exact printDocument_of_read hRead
  -- What stood in an embedded document may be too deep for a second reading; it is relayed then.
  · have hDepth : nestingDepth (encode (line v.indented)) = v.nesting :=
      nestingDepth_written isBlank_indented hIntegers isBlank_newline
    rw [printDocument_of_deep (by omega), trimEnd_line_indented (by omega)]

theorem exists_written {text : String} (h : text ∈ [v.compact, v.indented, line v.indented]) :
    ∃ spacing blanks, spacing.IsBlank ∧ IsBlank blanks ∧ text = v.write spacing ++ blanks := by
  have hEmpty : IsBlank "" := by
    intro c hc
    simp at hc
  simp only [List.mem_cons, List.not_mem_nil, or_false] at h
  rcases h with rfl | rfl | rfl
  · exact ⟨_, "", isBlank_compact, hEmpty, String.append_empty.symm⟩
  · exact ⟨_, "", isBlank_indented, hEmpty, String.append_empty.symm⟩
  · exact ⟨_, "\n", isBlank_indented, isBlank_newline, rfl⟩

/-- Reading undoes writing, and printing what was printed changes nothing, where numbers are short
integers. A written text nests as its value does. It is read as that value if no object in it stands
for an embedded document. So what is printed is read as what came, unless an embedded document in
that made it nest too deep. -/
theorem reading_undoes_printing (v : Value) (body printed : String) :
    (v.HasShortIntegers → ∀ text ∈ [v.compact, v.indented, line v.indented],
      nestingDepth (encode text) = v.nesting ∧
        (v.HasDistinctKeys → v.StandsForItself → readDocument (encode text) = readingOf v)) ∧
      ((∀ w, readDocument (encode body) = .ok w → w.HasShortIntegers) →
        printDocument body = .ok printed →
          printDocument printed = .ok printed ∧
          (levelLimit < nestingDepth (encode body) → printed = line (Text.trimEnd body)) ∧
          ∀ w, readDocument (encode body) = .ok w →
            printed = line w.indented ∧ readDocument (encode printed) = readingOf w ∧
              ((∀ s, Reached (encode body) s → s.embeddings = 0) →
                readDocument (encode printed) = .ok w)) := by
  constructor
  · intro hIntegers text hText
    obtain ⟨spacing, blanks, hSpacing, hBlank, rfl⟩ := exists_written hText
    exact ⟨nestingDepth_written hSpacing hIntegers hBlank,
      fun hKeys hSelf => readDocument_written hSpacing hKeys hIntegers hSelf hBlank⟩
  · intro hIntegers hPrinted
    refine ⟨?_, fun hDeep => ?_, fun w hRead => ?_⟩
    · rcases printDocument_eq_ok hPrinted with ⟨w, hRead, rfl⟩ | ⟨hDeep, rfl⟩
      · exact printDocument_printed hRead (hIntegers w hRead)
      · exact printDocument_relayed hDeep
    · rw [printDocument_of_deep hDeep] at hPrinted
      exact (Except.ok.inj hPrinted).symm
    · rw [printDocument_of_read hRead] at hPrinted
      cases hPrinted
      have hAgain := readDocument_printed hRead (hIntegers w hRead)
      refine ⟨rfl, hAgain, fun hNone => ?_⟩
      rw [hAgain, readingOf, if_pos (nesting_le_levelLimit hRead hNone)]

theorem reading_undoes_printing_nested :
    let v : Value := .object [("\"", .array [.number (.integer (-7))])]
    readDocument (encode v.compact) = .ok v ∧
      printDocument (line v.indented) = .ok (line v.indented) := by
  intro v
  have hIntegers : v.HasShortIntegers := by
    simp [v, Value.HasShortIntegers, IsShortInteger]
  have hKeys : v.HasDistinctKeys := by simp [v, Value.HasDistinctKeys]
  have hSelf : v.StandsForItself := by simp [v, Value.StandsForItself, embeddedKey]
  obtain ⟨hWritten, hPrinted⟩ := reading_undoes_printing v v.compact (line v.indented)
  have hRead : readDocument (encode v.compact) = .ok v :=
    (hWritten hIntegers v.compact List.mem_cons_self).2 hKeys hSelf
  refine ⟨hRead, (hPrinted ?_ (printDocument_of_read hRead)).1⟩
  intro w hAgain
  rw [hRead] at hAgain
  exact Except.ok.inj hAgain ▸ hIntegers

/-- An object whose first key is `embeddedKey` is read as the document in its string, here a value
without brackets. -/
theorem read_embedded {content : String} {w : Value}
    (h : Json.Scalar (skipBlank (encode content)) w []) :
    read (encode (Value.object [(embeddedKey, .string content)]).compact) = .ok w := by
  have hNone : AllBlank [] := nofun
  have hBytes : encode (Value.object [(embeddedKey, .string content)]).compact =
      byte '\x7b' :: (memberBytes [] embeddedKey (encode (quote content)) ++ [byte '\x7d']) := by
    have hColon : Spacing.compact.colon = ":" ++ "" := rfl
    have hEmpty : encode "" = [] := rfl
    have hSpelling := Value.spelling_object hColon (embeddedKey, .string content) [] 0
    simp only [hEmpty, Spacing.compact, groupBytes, rowBytes, List.map_nil, List.flatMap_nil,
      List.nil_append] at hSpelling
    exact hSpelling
  obtain ⟨taken, hQuoted, hTaken⟩ := encode_quote content
  have hKey := key_of_memberBytes hNone [] embeddedKey (encode (quote content)) [byte '\x7d']
  have hOpened := skipBlank_of_not_blank (b := byte '\x7b') (by decide)
    (memberBytes [] embeddedKey (encode (quote content)) ++ [byte '\x7d'])
  have hBehind : skipBlank (encode (quote content) ++ [byte '\x7d']) =
      byte '"' :: (taken ++ [byte '\x7d']) := by
    rw [hQuoted]
    exact skipBlank_of_not_blank (by decide) _
  have hText : readText (taken ++ [byte '\x7d']) = .ok (content, [byte '\x7d']) :=
    readText_eq_ok_iff.mpr ⟨taken, hTaken, rfl⟩
  have hLeave : skipBlank [byte '\x7d'] = byte '\x7d' :: [] := by decide
  rw [hBytes, Json.read, (Moves.enter rfl hOpened rfl hKey hBehind hText).run_eq,
    (Moves.within (.scalar rfl h)).run_eq, (Moves.leave rfl rfl rfl hLeave).run_eq,
    (Moves.finish rfl rfl rfl).run_eq_ok]

/-- So such an object is not read back as what was written. -/
theorem readDocument_embeddedNull :
    ∃ v : Value, v.HasDistinctKeys ∧ v.HasShortIntegers ∧ v.nesting ≤ levelLimit ∧
      readDocument (encode v.compact) = .ok .null ∧ readDocument (encode v.compact) ≠ .ok v := by
  have hKeys : (Value.object [(embeddedKey, .string "null")]).HasDistinctKeys := by
    simp [Value.HasDistinctKeys]
  have hIntegers : (Value.object [(embeddedKey, .string "null")]).HasShortIntegers := by
    simp [Value.HasShortIntegers]
  have hNull : Json.Scalar (skipBlank (encode "null")) .null [] :=
    .null (readWord_eq_ok_iff.mpr rfl)
  have hRead : readDocument (encode (Value.object [(embeddedKey, .string "null")]).compact) =
      .ok .null :=
    readDocument_eq_ok_iff.mpr ⟨by decide +kernel, read_embedded hNull⟩
  refine ⟨_, hKeys, hIntegers, by decide, hRead, ?_⟩
  rw [hRead]
  exact nofun

end CommandLine

end SyntaxDrawing
