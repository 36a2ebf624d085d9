import SyntaxDrawing.CommandLine.Execution

/-!
# Flags for a geometry

Lengths given by flags are the lengths that a layout uses: every flag is read once, and the words
of `layoutWords` come out as the geometry and the policy that they were made for.
-/

namespace SyntaxDrawing.CommandLine

def flagWord (flag : Flag) (value : String) : String :=
  "--" ++ flag.name ++ "=" ++ value

theorem Word.ofString_flagWord (flag : Flag) (value : String) :
    Word.ofString (flagWord flag value) = .long flag.name (some value) := by
  have hName : ∀ c ∈ flag.name.toList, (c != '=') = true := by
    rw [← List.all_eq_true]
    cases flag with
    | dimension d => cases d <;> rfl
    | _ => rfl
  have hChars : (flagWord flag value).toList =
      '-' :: '-' :: (flag.name.toList ++ '=' :: value.toList) := by
    simp [flagWord, String.toList_append]
  have hTake :
      (flag.name.toList ++ '=' :: value.toList).takeWhile (· != '=') = flag.name.toList := by
    rw [List.takeWhile_append_of_pos hName]
    simp
  have hDrop : (flag.name.toList ++ '=' :: value.toList).dropWhile (· != '=') =
      '=' :: value.toList := by
    rw [List.dropWhile_append_of_pos hName]
    simp
  unfold Word.ofString
  rw [hChars]
  split
  · next h => simp at h
  · next h =>
    simp only [List.cons.injEq, true_and] at h
    subst h
    rw [hTake, hDrop]
    simp
  · next hNot hWord =>
    simp only [List.cons.injEq, true_and] at hWord
    exact (hNot hWord.1.symm).elim
  · next hNot _ => exact (hNot _ rfl).elim

def Dimension.lengthIn (d : Dimension) (g : Layout.Geometry Float) : Float :=
  match d with
  | .nodeWidth => g.nodeWidth
  | .nodeHeight => g.nodeHeight
  | .horizontalGap => g.horizontalGap
  | .verticalGap => g.verticalGap

def lengthWords (lengths : Dimension → String) : List String :=
  [Dimension.nodeWidth, .nodeHeight, .horizontalGap, .verticalGap].map fun d =>
    flagWord (.dimension d) (lengths d)

def layoutWords (policy : Policy) (lengths : Dimension → String) : List String :=
  "layout" :: (lengthWords lengths ++ if policy = .skip then ["--skip-untyped"] else [])

def lengthsOf (g : Layout.Geometry Float) : List (Dimension × Float) :=
  [(.verticalGap, g.verticalGap), (.horizontalGap, g.horizontalGap), (.nodeHeight, g.nodeHeight),
    (.nodeWidth, g.nodeWidth)]

theorem take_flagWord {reading : Reading} {d : Dimension} {text : String} {x : Float}
    (hPending : reading.pending = none) (hClosed : reading.closed = false)
    (hNew : reading.arguments.lengths.lookup d = none) (hText : readLength text = .ok x) :
    reading.take (.behind .layout) (flagWord (.dimension d) text) =
      .ok { reading with
        arguments.lengths := (d, x) :: reading.arguments.lengths, awaiting := false } := by
  have hFlag : Scope.flag? (.behind .layout) (Flag.dimension d).name = some (.dimension d) := by
    cases d <;> decide
  simp [Reading.take, hClosed, Word.ofString_flagWord, Reading.takeLong, hFlag, Flag.takesValue,
    Reading.settledThen, Reading.settled, hPending, Arguments.settle, Arguments.setValue, hNew,
    hText]

theorem take_skipUntyped {reading : Reading} (hPending : reading.pending = none)
    (hClosed : reading.closed = false) (hNew : reading.arguments.skipUntyped = false) :
    reading.take (.behind .layout) "--skip-untyped" =
      .ok { reading with arguments.skipUntyped := true, awaiting := false } := by
  have hWord : Word.ofString "--skip-untyped" = .long "skip-untyped" none := by decide
  have hFlag : Scope.flag? (.behind .layout) "skip-untyped" = some .skipUntyped := by decide
  simp [Reading.take, hClosed, hWord, Reading.takeLong, hFlag, Flag.takesValue,
    Reading.settledThen, Reading.settled, hPending, Arguments.settle, Arguments.setFlag, hNew]

section

variable {lengths : Dimension → String} {g : Layout.Geometry Float}

theorem takeAll_lengthWords (hLengths : ∀ d, readLength (lengths d) = .ok (d.lengthIn g))
    (more : List String) :
    Reading.start.takeAll (.behind .layout) (lengthWords lengths ++ more) =
      Reading.takeAll ⟨⟨none, false, lengthsOf g, none⟩, none, false, false⟩ (.behind .layout)
        more := by
  simp only [lengthWords, List.map_cons, List.map_nil, List.cons_append, List.nil_append,
    Reading.takeAll]
  rw [take_flagWord rfl rfl rfl (hLengths .nodeWidth)]
  simp only
  rw [take_flagWord rfl rfl rfl (hLengths .nodeHeight)]
  simp only
  rw [take_flagWord rfl rfl rfl (hLengths .horizontalGap)]
  simp only
  rw [take_flagWord rfl rfl rfl (hLengths .verticalGap)]
  rfl

theorem readBehind_layoutWords (policy : Policy)
    (hLengths : ∀ d, readLength (lengths d) = .ok (d.lengthIn g)) :
    readBehind .layout (layoutWords policy lengths).tail =
      .ok ⟨none, decide (policy = .skip), lengthsOf g, none⟩ := by
  rw [readBehind, layoutWords, List.tail_cons, takeAll_lengthWords hLengths]
  cases policy with
  | emit => rfl
  | skip =>
    simp only [if_true, Reading.takeAll, take_skipUntyped]
    rfl

theorem interpret_layoutWords (environmentUrl : Option String) (policy : Policy)
    (hLengths : ∀ d, readLength (lengths d) = .ok (d.lengthIn g))
    (hOrigin : g.originX = Layout.Geometry.standard.originX) :
    ∃ i, interpret environmentUrl (layoutWords policy lengths) = .ok i ∧ i.subcommand = .layout ∧
      i.arguments.policy = policy ∧ i.arguments.geometry = g ∧ i.input = standardInput := by
  have hRead := readBehind_layoutWords policy hLengths
  refine ⟨⟨environmentUrl, .layout, ⟨none, decide (policy = .skip), lengthsOf g, none⟩⟩, ?_, rfl,
    ?_, ?_, rfl⟩
  · have hWords : layoutWords policy lengths = "layout" :: (layoutWords policy lengths).tail := rfl
    have hHelp : ¬ "layout" = helpWord := by decide
    have hName : Subcommand.ofName? "layout" = some .layout := by decide
    rw [hWords, interpret, readGeneral]
    simp [Reading.start, hHelp, hName, hRead, Reading.settled, Arguments.settle, Arguments.none]
  · cases policy <;> rfl
  · rw [Arguments.geometry]
    simp only [lengthsOf, List.foldr_cons, List.foldr_nil, Dimension.assign]
    rw [← hOrigin]

end

end SyntaxDrawing.CommandLine
