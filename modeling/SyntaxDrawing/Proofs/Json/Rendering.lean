import Mathlib.Data.List.Basic
import SyntaxDrawing.Json.Nesting
import SyntaxDrawing.Json.Printer

/-!
# Renderings and their blanks

The renderings of a value differ in nothing but the blanks outside of strings.
-/

namespace SyntaxDrawing.Json

def Place.behind (p : Place) (c : Char) : Place :=
  match p with
  | .outside => if c = '"' then .inside else .outside
  | .inside => if c = '\\' then .escaped else if c = '"' then .outside else .inside
  | .escaped => .inside

def isBlankChar (c : Char) : Bool :=
  c == ' ' || c == '\n' || c == '\t' || c == '\r'

def inkFrom : Place → List Char → List Char
  | _, [] => []
  | .outside, c :: cs =>
    if isBlankChar c then inkFrom .outside cs else c :: inkFrom (Place.behind .outside c) cs
  | p, c :: cs => c :: inkFrom (p.behind c) cs

def withoutBlanks (text : String) : String :=
  String.ofList (inkFrom .outside text.toList)

theorem not_quote_of_isBlankChar {c : Char} (h : isBlankChar c = true) : c ≠ '"' := by
  rintro rfl
  exact absurd h (by decide)

theorem inkFrom_append (p : Place) (cs ds : List Char) :
    inkFrom p (cs ++ ds) = inkFrom p cs ++ inkFrom (cs.foldl Place.behind p) ds := by
  induction cs generalizing p with
  | nil => cases p <;> rfl
  | cons c cs ih =>
    cases p with
    | outside =>
      cases hc : isBlankChar c with
      | true =>
        have hPlace : Place.behind .outside c = .outside := if_neg (not_quote_of_isBlankChar hc)
        simp [inkFrom, hc, ih, hPlace]
      | false => simp [inkFrom, hc, ih]
    | inside => simp [inkFrom, ih]
    | escaped => simp [inkFrom, ih]

def IsClosed (text : String) : Prop :=
  text.toList.foldl Place.behind .outside = .outside

def IsBlank (text : String) : Prop :=
  ∀ c ∈ text.toList, isBlankChar c = true

theorem isClosed_of_no_quote {text : String} (h : ∀ c ∈ text.toList, c ≠ '"') : IsClosed text := by
  unfold IsClosed
  generalize text.toList = cs at h
  induction cs with
  | nil => rfl
  | cons c cs ih =>
    have hc : Place.behind .outside c = .outside := if_neg (h c (by simp))
    rw [List.foldl_cons, hc]
    exact ih fun c hMem => h c (by simp [hMem])

theorem IsBlank.isClosed {text : String} (h : IsBlank text) : IsClosed text :=
  isClosed_of_no_quote fun c hMem => not_quote_of_isBlankChar (h c hMem)

theorem IsBlank.inkFrom_eq {text : String} (h : IsBlank text) :
    inkFrom .outside text.toList = [] := by
  unfold IsBlank at h
  generalize text.toList = cs at h
  induction cs with
  | nil => rfl
  | cons c cs ih =>
    rw [inkFrom, if_pos (h c (by simp))]
    exact ih fun c hMem => h c (by simp [hMem])

/-- Two texts with strings closed that differ only in blanks outside of them. -/
structure SameInk (text text' : String) : Prop where
  closed : IsClosed text
  closed' : IsClosed text'
  ink : withoutBlanks text = withoutBlanks text'

namespace SameInk

variable {text text' : String}

theorem refl (h : IsClosed text) : SameInk text text :=
  ⟨h, h, rfl⟩

theorem append {more more' : String} (h : SameInk text text') (hMore : SameInk more more') :
    SameInk (text ++ more) (text' ++ more') := by
  obtain ⟨hClosed, hClosed', hInk⟩ := h
  obtain ⟨hClosedMore, hClosedMore', hInkMore⟩ := hMore
  simp only [withoutBlanks, String.ofList_inj] at hInk hInkMore
  unfold IsClosed at *
  refine ⟨?_, ?_, ?_⟩
  · rw [IsClosed, String.toList_append, List.foldl_append, hClosed, hClosedMore]
  · rw [IsClosed, String.toList_append, List.foldl_append, hClosed', hClosedMore']
  · rw [withoutBlanks, withoutBlanks, String.toList_append, String.toList_append, inkFrom_append,
      inkFrom_append, hClosed, hClosed', hInk, hInkMore]

theorem of_isBlank (h : IsBlank text) (h' : IsBlank text') : SameInk text text' :=
  ⟨h.isClosed, h'.isClosed, by rw [withoutBlanks, withoutBlanks, h.inkFrom_eq, h'.inkFrom_eq]⟩

end SameInk

theorem hexDigit_ne {n : Nat} (h : n < 16) : hexDigit n ≠ '"' ∧ hexDigit n ≠ '\\' := by
  have hAll : ∀ n < 16, hexDigit n ≠ '"' ∧ hexDigit n ≠ '\\' := by decide
  exact hAll n h

def letterEscapes : List (Char × Char) :=
  [('"', '"'), ('\\', '\\'), ('\x08', 'b'), ('\x0c', 'f'), ('\n', 'n'), ('\r', 'r'), ('\t', 't')]

theorem escapeChar_cases (c : Char) :
    (∃ letter, (c, letter) ∈ letterEscapes ∧ escapeChar c = ['\\', letter]) ∨
      (c.toNat < 0x20 ∧ escapeChar c =
        ['\\', 'u', '0', '0', hexDigit (c.toNat / 16), hexDigit (c.toNat % 16)]) ∨
      (c ≠ '"' ∧ c ≠ '\\' ∧ ¬ c.toNat < 0x20 ∧ escapeChar c = [c]) := by
  by_cases hLetter : ∃ letter, (c, letter) ∈ letterEscapes
  · obtain ⟨letter, hMem⟩ := hLetter
    have hAll : ∀ p ∈ letterEscapes, escapeChar p.1 = ['\\', p.2] := by decide
    exact .inl ⟨letter, hMem, hAll _ hMem⟩
  · have hNot : ∀ p ∈ letterEscapes, c ≠ p.1 := by
      rintro p hp rfl
      exact hLetter ⟨p.2, hp⟩
    simp only [letterEscapes, List.forall_mem_cons] at hNot
    obtain ⟨hQuote, hSlash, hBack, hFeed, hLine, hReturn, hTab, -⟩ := hNot
    rw [escapeChar, if_neg hQuote, if_neg hSlash, if_neg hBack, if_neg hFeed, if_neg hLine,
      if_neg hReturn, if_neg hTab]
    by_cases hControl : c.toNat < 0x20
    · exact .inr (.inl ⟨hControl, if_pos hControl⟩)
    · exact .inr (.inr ⟨hQuote, hSlash, hControl, if_neg hControl⟩)

theorem foldl_escapeChar (c : Char) : (escapeChar c).foldl Place.behind .inside = .inside := by
  obtain ⟨letter, -, hChars⟩ | ⟨hControl, hChars⟩ | ⟨hQuote, hSlash, -, hChars⟩ :=
    escapeChar_cases c
  · rw [hChars]
    rfl
  · obtain ⟨hHigh, hHigh'⟩ := hexDigit_ne (show c.toNat / 16 < 16 by omega)
    obtain ⟨hLow, hLow'⟩ := hexDigit_ne (show c.toNat % 16 < 16 by omega)
    rw [hChars]
    simp [Place.behind, hHigh, hHigh', hLow, hLow']
  · rw [hChars]
    simp [Place.behind, hQuote, hSlash]

theorem isClosed_quote (s : String) : IsClosed (quote s) := by
  have hBody (cs : List Char) : (cs.flatMap escapeChar).foldl Place.behind .inside = .inside := by
    induction cs with
    | nil => rfl
    | cons c cs ih => rw [List.flatMap_cons, List.foldl_append, foldl_escapeChar, ih]
  rw [IsClosed, quote, String.toList_ofList, List.cons_append, List.foldl_cons, List.foldl_append]
  exact congrArg (fun p => Place.behind p '"') (hBody s.toList)

theorem ne_quote_of_isDigit {c : Char} (h : c.isDigit = true) : c ≠ '"' := by
  rintro rfl
  exact absurd h (by decide)

theorem ne_quote_of_mem_toDigits {n : Nat} {c : Char} (h : c ∈ Nat.toDigits 10 n) : c ≠ '"' :=
  ne_quote_of_isDigit (Nat.isDigit_of_mem_toDigits (by decide) (by decide) h)

theorem ne_quote_of_mem_write {digits : List Char} (hDigits : ∀ c ∈ digits, c ≠ '"')
    (p : Decimal.Positional) (leading : Int) : ∀ c ∈ p.write digits leading, c ≠ '"' := by
  intro c hc
  unfold Decimal.Positional.write Decimal.pointAfter at hc
  have hTake (n : Nat) (h : c ∈ digits.take n) := hDigits c (List.mem_of_mem_take h)
  have hDrop (n : Nat) (h : c ∈ digits.drop n) := hDigits c (List.mem_of_mem_drop h)
  have hExponent (n : Nat) (h : c ∈ Nat.toDigits 10 n) := ne_quote_of_mem_toDigits h
  grind

theorem ne_quote_of_floatText? {x : Float} {text : String} (h : Decimal.floatText? x = some text) :
    ∀ c ∈ text.toList, c ≠ '"' := by
  unfold Decimal.floatText? at h
  split at h
  · next negative m q narrow _ =>
    have hLeading : ∀ c ∈ (Decimal.shortest m q narrow).leadingForm.1, c ≠ '"' := by
      intro c hc
      refine ne_quote_of_mem_toDigits (n := (Decimal.shortest m q narrow).significand) ?_
      simp only [Decimal.Scaled.leadingForm, List.mem_reverse] at hc
      exact List.mem_reverse.1 ((List.dropWhile_sublist _).mem hc)
    have hBody := ne_quote_of_mem_write hLeading Decimal.positional
      (Decimal.shortest m q narrow).leadingForm.2
    cases h
    intro c hc
    rw [String.toList_ofList, List.mem_append] at hc
    rcases hc with hc | hc
    · rintro rfl
      split at hc
      · exact absurd hc (by decide)
      · cases hc
    · split at hc
      · rintro rfl
        exact absurd hc (by decide)
      · exact hBody c hc
  · cases h

theorem isClosed_numberText (n : Number) : IsClosed n.text := by
  refine isClosed_of_no_quote fun c hc => ?_
  cases n with
  | integer i =>
    have hRepr (n : Nat) (h : c ∈ (Nat.repr n).toList) : c ≠ '"' :=
      ne_quote_of_mem_toDigits (Nat.toList_repr ▸ h)
    simp only [Number.text, Decimal.integerText] at hc
    split at hc
    · rw [String.toList_append, List.mem_append] at hc
      rcases hc with hc | hc
      · rintro rfl
        exact absurd hc (by decide)
      · exact hRepr _ hc
    · exact hRepr _ hc
  | real x =>
    rw [Number.text] at hc
    cases hText : Decimal.floatText? x with
    | some text =>
      rw [hText] at hc
      exact ne_quote_of_floatText? hText c hc
    | none =>
      rw [hText] at hc
      rintro rfl
      exact absurd hc (by decide)

structure Spacing.IsBlank (spacing : Spacing) : Prop where
  line : ∀ depth, Json.IsBlank (spacing.lineAt depth)
  colon : ∃ blanks, Json.IsBlank blanks ∧ spacing.colon = ":" ++ blanks

theorem isBlank_compact : Spacing.compact.IsBlank := by
  refine ⟨fun depth c hc => ?_, "", fun c hc => ?_, rfl⟩
  · simp [Spacing.compact] at hc
  · simp at hc

theorem isBlank_indented : Spacing.indented.IsBlank := by
  refine ⟨fun depth c hc => ?_, " ", fun c hc => ?_, rfl⟩
  · simp only [Spacing.indented, String.toList_append, List.mem_append, String.toList_ofList] at hc
    rcases hc with hc | hc
    · obtain rfl : c = '\n' := by simpa using hc
      rfl
    · obtain rfl := List.eq_of_mem_replicate hc
      rfl
  · obtain rfl : c = ' ' := by simpa using hc
    rfl

theorem Value.induction {P : Value → Prop} (null : P .null) (bool : ∀ b, P (.bool b))
    (number : ∀ n, P (.number n)) (string : ∀ s, P (.string s))
    (array : ∀ items, (∀ item ∈ items, P item) → P (.array items))
    (object : ∀ fields, (∀ field ∈ fields, P field.2) → P (.object fields)) (v : Value) : P v :=
  @Value.rec P (fun items => ∀ item ∈ items, P item) (fun fields => ∀ field ∈ fields, P field.2)
    (fun field => P field.2) null bool number string array object (fun _ h => nomatch h)
    (fun _ _ hItem hItems => List.forall_mem_cons.2 ⟨hItem, hItems⟩) (fun _ h => nomatch h)
    (fun _ _ hField hFields => List.forall_mem_cons.2 ⟨hField, hFields⟩) (fun _ _ h => h) v

section

variable {spacing spacing' : Spacing} {text text' : String}

theorem SameInk.colon (h : spacing.IsBlank) (h' : spacing'.IsBlank) :
    SameInk spacing.colon spacing'.colon := by
  obtain ⟨blanks, hBlanks, hColon⟩ := h.colon
  obtain ⟨blanks', hBlanks', hColon'⟩ := h'.colon
  rw [hColon, hColon']
  have hMark : IsClosed ":" := rfl
  exact (SameInk.refl hMark).append (.of_isBlank hBlanks hBlanks')

def WritesSameInk (spacing spacing' : Spacing) (v : Value) : Prop :=
  ∀ (text text' : String) (depth depth' : Nat), SameInk text text' →
    SameInk (v.writeOnto spacing depth text) (v.writeOnto spacing' depth' text')

theorem SameInk.word (ht : SameInk text text') (word : String) (hWord : IsClosed word) :
    SameInk (text ++ word) (text' ++ word) :=
  ht.append (.refl hWord)

theorem SameInk.line (h : spacing.IsBlank) (h' : spacing'.IsBlank) (ht : SameInk text text')
    (depth depth' : Nat) :
    SameInk (text ++ spacing.lineAt depth) (text' ++ spacing'.lineAt depth') :=
  ht.append (.of_isBlank (h.line depth) (h'.line depth'))

theorem SameInk.items (h : spacing.IsBlank) (h' : spacing'.IsBlank) {items : List Value}
    (hItems : ∀ item ∈ items, WritesSameInk spacing spacing' item) (depth depth' : Nat)
    (ht : SameInk text text') :
    SameInk (writeItemsOnto spacing depth text items)
      (writeItemsOnto spacing' depth' text' items) := by
  induction items generalizing text text' with
  | nil => simpa [writeItemsOnto] using ht
  | cons item items ih =>
    rw [writeItemsOnto, writeItemsOnto]
    refine ih (fun item hItem => hItems item (by simp [hItem])) ?_
    exact hItems item (by simp) _ _ _ _ ((ht.word "," rfl).line h h' depth depth')

theorem SameInk.fields (h : spacing.IsBlank) (h' : spacing'.IsBlank)
    {fields : List (String × Value)}
    (hFields : ∀ field ∈ fields, WritesSameInk spacing spacing' field.2) (depth depth' : Nat)
    (ht : SameInk text text') :
    SameInk (writeFieldsOnto spacing depth text fields)
      (writeFieldsOnto spacing' depth' text' fields) := by
  induction fields generalizing text text' with
  | nil => simpa [writeFieldsOnto] using ht
  | cons field fields ih =>
    obtain ⟨key, value⟩ := field
    rw [writeFieldsOnto, writeFieldsOnto]
    refine ih (fun field hField => hFields field (by simp [hField])) ?_
    have hKey := ((ht.word "," rfl).line h h' depth depth').append (.refl (isClosed_quote key))
    exact hFields (key, value) (by simp) _ _ _ _ (hKey.append (.colon h h'))

theorem writesSameInk (h : spacing.IsBlank) (h' : spacing'.IsBlank) (v : Value) :
    WritesSameInk spacing spacing' v := by
  induction v using Value.induction with
  | null => exact fun _ _ _ _ ht => ht.word "null" rfl
  | bool b => exact fun _ _ _ _ ht => ht.word _ (by cases b <;> rfl)
  | number n => exact fun _ _ _ _ ht => ht.append (.refl (isClosed_numberText n))
  | string s => exact fun _ _ _ _ ht => ht.append (.refl (isClosed_quote s))
  | array items ih =>
    intro text text' depth depth' ht
    cases items with
    | nil => exact ht.word "[]" rfl
    | cons item items =>
      rw [Value.writeOnto, Value.writeOnto]
      have hOpen := (ht.word "[" rfl).line h h' (depth + 1) (depth' + 1)
      have hFirst := ih item (by simp) _ _ (depth + 1) (depth' + 1) hOpen
      have hRest := SameInk.items h h' (fun item hItem => ih item (List.mem_cons_of_mem _ hItem))
        (depth + 1) (depth' + 1) hFirst
      exact (hRest.line h h' depth depth').word "]" rfl
  | object fields ih =>
    intro text text' depth depth' ht
    cases fields with
    | nil => exact ht.word "\x7b\x7d" rfl
    | cons field fields =>
      obtain ⟨key, value⟩ := field
      rw [Value.writeOnto, Value.writeOnto]
      have hOpen := (ht.word "\x7b" rfl).line h h' (depth + 1) (depth' + 1)
      have hKey := (hOpen.append (.refl (isClosed_quote key))).append (.colon h h')
      have hFirst := ih (key, value) (by simp) _ _ (depth + 1) (depth' + 1) hKey
      have hRest := SameInk.fields h h'
        (fun field hField => ih field (List.mem_cons_of_mem _ hField)) (depth + 1) (depth' + 1)
        hFirst
      exact (hRest.line h h' depth depth').word "\x7d" rfl

/-- The indented rendering on a line of its own is the compact one with blanks between its parts. -/
theorem withoutBlanks_indented_line (v : Value) :
    withoutBlanks (v.indented ++ "\n") = withoutBlanks v.compact := by
  have hNewline : IsBlank "\n" := fun c hc => by
    obtain rfl : c = '\n' := by simpa using hc
    rfl
  have hEnd : SameInk "\n" "" := .of_isBlank hNewline fun c hc => by simp at hc
  have hBoth := (writesSameInk isBlank_indented isBlank_compact v "" "" 0 0 (.refl rfl)).append hEnd
  rw [String.append_empty] at hBoth
  exact hBoth.ink

end

end SyntaxDrawing.Json
