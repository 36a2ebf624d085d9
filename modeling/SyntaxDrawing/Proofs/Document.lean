import SyntaxDrawing.Document
import SyntaxDrawing.Proofs.Json.Depth

/-!
# How deep the reader goes

Outside of embedded documents the reader has never more arrays and objects open than the depth pass
counts, on whatever text and however far it comes. The pass takes an embedded document for a string,
so each one that is open adds up to `embeddedLevels` to that.
-/

namespace SyntaxDrawing.Json

variable {s s' : State} {text rest rest' : List UInt8} {n m : Nat}

def State.opens (s : State) : Bool :=
  s.phase.awaits && !s.isFull &&
    (skipBlank s.rest).head?.any fun b => b == byte '[' || b == byte '\x7b'

/-- The most arrays and objects that are open at any moment of the next step. -/
def State.depth (s : State) : Nat :=
  s.frames.length + s.opens.toNat

def State.embeddings (s : State) : Nat :=
  s.frames.countP Frame.isEmbedded

def levelsIn (frames : List Frame) : Nat :=
  (frames.takeWhile fun frame => !frame.isEmbedded).length

theorem State.levels_eq (s : State) : s.levels = levelsIn s.frames :=
  rfl

theorem levelsIn_cons {f : Frame} (hf : f.isEmbedded = false) (frames : List Frame) :
    levelsIn (f :: frames) = levelsIn frames + 1 := by
  simp [levelsIn, hf]

@[simp] theorem levelsIn_array (items : List Value) (frames : List Frame) :
    levelsIn (.array items :: frames) = levelsIn frames + 1 :=
  rfl

@[simp] theorem levelsIn_object (fields : List (String × Value)) (key : String)
    (frames : List Frame) : levelsIn (.object fields key :: frames) = levelsIn frames + 1 :=
  rfl

theorem foldl_pass_open {b : UInt8} (hb : b = byte '[' ∨ b = byte '\x7b')
    (h : skipBlank rest = b :: rest') :
    rest.foldl Depth.pass ⟨.outside, n, m⟩ =
      rest'.foldl Depth.pass ⟨.outside, n + 1, max m (n + 1)⟩ := by
  rw [foldl_pass_skipBlank h, List.foldl_cons]
  rcases hb with rfl | rfl <;> rfl

theorem foldl_pass_close {b : UInt8} (hb : b = byte ']' ∨ b = byte '\x7d')
    (h : skipBlank rest = b :: rest') :
    rest.foldl Depth.pass ⟨.outside, n + 1, m⟩ = rest'.foldl Depth.pass ⟨.outside, n, m⟩ := by
  rw [foldl_pass_skipBlank h, List.foldl_cons]
  rcases hb with rfl | rfl <;> rfl

theorem foldl_pass_comma (h : skipBlank rest = byte ',' :: rest') :
    rest.foldl Depth.pass ⟨.outside, n, m⟩ = rest'.foldl Depth.pass ⟨.outside, n, m⟩ := by
  rw [foldl_pass_skipBlank h, foldl_pass_plain (by decide)]

theorem State.opens_eq_true {b : UInt8} (hp : s.phase = .value) (hFull : s.isFull = false)
    (hb : b = byte '[' ∨ b = byte '\x7b') (h : skipBlank s.rest = b :: rest) :
    s.opens = true := by
  rcases hb with rfl | rfl <;> simp [State.opens, hp, Phase.awaits, hFull, h]

theorem State.opens_of_after {v : Value} (hp : s.phase = .after v) : s.opens = false := by
  simp [State.opens, hp, Phase.awaits]

theorem Scalar.opens_eq {v : Value} (h : Scalar (skipBlank s.rest) v rest) : s.opens = false := by
  unfold State.opens
  generalize skipBlank s.rest = bytes at h
  suffices hb : (bytes.head?.any fun b => b == byte '[' || b == byte '\x7b') = false by simp [hb]
  cases h with
  | @number b _ _ _ hDigit _ =>
    have hne (c : Char) (hc : isDigitByte (byte c) = false) : b ≠ byte c :=
      ne_byte_of_isDigitByte hDigit hc
    simp [hne '[' (by decide), hne '\x7b' (by decide)]
  | _ => simp only [List.head?_cons, Option.any_some]; decide

/-- The pass keeps count of the levels of the document that is being read. -/
theorem Within.foldl_pass (h : Within s s') (m : Nat) :
    s.rest.foldl Depth.pass ⟨.outside, s.levels, m⟩ =
      s'.rest.foldl Depth.pass
        ⟨.outside, s'.levels, if s.opens then max m (s.levels + 1) else m⟩ := by
  cases h with
  | scalar hp hs =>
    rw [if_neg (by simp [hs.opens_eq]), foldl_pass_skipBlank rfl, hs.foldl_pass]
    rfl
  | emptyArray hp hb hFull hb' =>
    rw [if_pos (State.opens_eq_true hp hFull (.inl rfl) hb), foldl_pass_open (.inl rfl) hb,
      foldl_pass_close (.inl rfl) hb']
    rfl
  | openArray hp hb hFull hb' hne =>
    rw [if_pos (State.opens_eq_true hp hFull (.inl rfl) hb), foldl_pass_open (.inl rfl) hb,
      foldl_pass_skipBlank hb']
    rfl
  | emptyObject hp hb hFull hb' =>
    rw [if_pos (State.opens_eq_true hp hFull (.inr rfl) hb), foldl_pass_open (.inr rfl) hb,
      foldl_pass_close (.inr rfl) hb']
    rfl
  | openObject hp hb hFull hKey hne =>
    rw [if_pos (State.opens_eq_true hp hFull (.inr rfl) hb), foldl_pass_open (.inr rfl) hb,
      hKey.foldl_pass]
    rfl
  | nextItem hp hf hb hb' hne =>
    rw [if_neg (by simp [State.opens_of_after hp]), foldl_pass_comma hb, foldl_pass_skipBlank hb']
    simp only [State.levels_eq, hf, levelsIn_array]
  | closeArray hp hf hb =>
    rw [if_neg (by simp [State.opens_of_after hp])]
    simp only [State.levels_eq, hf, levelsIn_array]
    exact foldl_pass_close (.inl rfl) hb
  | nextMember hp hf hb hKey =>
    rw [if_neg (by simp [State.opens_of_after hp]), foldl_pass_comma hb, hKey.foldl_pass]
    simp only [State.levels_eq, hf, levelsIn_object]
  | closeObject hp hf hb =>
    rw [if_neg (by simp [State.opens_of_after hp])]
    simp only [State.levels_eq, hf, levelsIn_object]
    exact foldl_pass_close (.inr rfl) hb

def framesAround (frames : List Frame) : List Frame :=
  frames.dropWhile fun frame => !frame.isEmbedded

@[simp] theorem framesAround_array (items : List Value) (frames : List Frame) :
    framesAround (.array items :: frames) = framesAround frames :=
  rfl

@[simp] theorem framesAround_object (fields : List (String × Value)) (key : String)
    (frames : List Frame) : framesAround (.object fields key :: frames) = framesAround frames :=
  rfl

theorem framesAround_cons {f : Frame} (hf : f.isEmbedded = false) (frames : List Frame) :
    framesAround (f :: frames) = framesAround frames := by
  simp [framesAround, hf]

theorem Within.framesAround_eq (h : Within s s') :
    framesAround s'.frames = framesAround s.frames := by
  cases h <;> simp [*]

theorem Within.text_eq (h : Within s s') : s'.text = s.text := by
  cases h <;> rfl

theorem any_isEmbedded_framesAround (frames : List Frame) :
    (framesAround frames).any Frame.isEmbedded = frames.any Frame.isEmbedded := by
  induction frames with
  | nil => rfl
  | cons f frames ih =>
    cases hf : f.isEmbedded with
    | true => simp [framesAround, hf]
    | false => rw [framesAround_cons hf, ih, List.any_cons, hf, Bool.false_or]

theorem Within.levels_le (h : Within s s') : s'.levels ≤ s.levels + s.opens.toNat := by
  cases h with
  | openArray hp hb hFull =>
    rw [State.opens_eq_true hp hFull (.inl rfl) hb]
    exact Nat.le_of_eq (levelsIn_array [] s.frames)
  | openObject hp hb hFull hKey =>
    rw [State.opens_eq_true hp hFull (.inr rfl) hb]
    exact Nat.le_of_eq (levelsIn_object [] _ s.frames)
  | nextItem hp hf | closeArray hp hf | nextMember hp hf | closeObject hp hf =>
    simp only [State.levels_eq, hf, levelsIn_array, levelsIn_object]
    omega
  | _ => exact Nat.le_add_right _ _

/-- The pass over a document has come to what is unread of it with so many levels open; a document
inside of another has only so many. -/
structure Tracked (text rest : List UInt8) (levels : Nat) (isInner : Bool) : Prop where
  passed : ∃ m, levels ≤ m ∧
    text.foldl Depth.pass .zero = rest.foldl Depth.pass ⟨.outside, levels, m⟩
  limited : isInner = true → levels ≤ embeddedLevels

theorem Tracked.initial (text : List UInt8) (isInner : Bool) : Tracked text text 0 isInner :=
  ⟨⟨0, Nat.le_refl _, rfl⟩, fun _ => Nat.zero_le _⟩

/-- Every document around the one being read is tracked, up to the text that holds them all. -/
def TrackedAround (text : List UInt8) : (current : List UInt8) → List Frame → Prop
  | current, [] => current = text
  | _, .embedded outer resume :: frames =>
    Tracked outer resume (levelsIn frames + 1) (frames.any Frame.isEmbedded) ∧
      TrackedAround text outer frames
  | current, _ :: frames => TrackedAround text current frames

theorem trackedAround_framesAround {current : List UInt8} {frames : List Frame} :
    TrackedAround text current (framesAround frames) ↔ TrackedAround text current frames := by
  induction frames with
  | nil => rfl
  | cons f frames ih =>
    cases f with
    | embedded => rfl
    | array => exact ih
    | object => exact ih

structure State.Tracked (text : List UInt8) (s : State) : Prop where
  here : Json.Tracked s.text s.rest s.levels (s.frames.any Frame.isEmbedded)
  around : TrackedAround text s.text s.frames

theorem State.limited_of_opens (hAny : s.frames.any Frame.isEmbedded = true)
    (ho : s.opens = true) : s.levels < embeddedLevels := by
  simp only [State.opens, State.isFull, hAny, Bool.and_eq_true, Bool.not_eq_true',
    Bool.true_and, decide_eq_false_iff_not] at ho
  omega

theorem Within.tracked (h : Within s s') (hs : s.Tracked text) : s'.Tracked text := by
  have hAny : s'.frames.any Frame.isEmbedded = s.frames.any Frame.isEmbedded := by
    rw [← any_isEmbedded_framesAround, h.framesAround_eq, any_isEmbedded_framesAround]
  have hLevels := h.levels_le
  obtain ⟨⟨⟨m, hm, hPass⟩, hLimit⟩, hAround⟩ := hs
  refine ⟨⟨⟨if s.opens then max m (s.levels + 1) else m, ?_, ?_⟩, ?_⟩, ?_⟩
  · split
    · next ho =>
      rw [ho, Bool.toNat_true] at hLevels
      omega
    · next ho =>
      rw [Bool.not_eq_true] at ho
      rw [ho, Bool.toNat_false] at hLevels
      omega
  · rw [h.text_eq, hPass, h.foldl_pass]
  · intro hInner
    rw [hAny] at hInner
    cases ho : s.opens with
    | true =>
      have := State.limited_of_opens hInner ho
      rw [ho, Bool.toNat_true] at hLevels
      omega
    | false =>
      have := hLimit hInner
      rw [ho, Bool.toNat_false] at hLevels
      omega
  · rw [← trackedAround_framesAround, h.framesAround_eq, h.text_eq, trackedAround_framesAround]
    exact hAround

theorem Moves.tracked (h : Moves s (.running s')) (hs : s.Tracked text) : s'.Tracked text := by
  cases h with
  | within h => exact h.tracked hs
  | enter hp hb hFull hKey hq ht =>
    obtain ⟨⟨⟨m, hm, hPass⟩, hLimit⟩, hAround⟩ := hs
    have ho := State.opens_eq_true hp hFull (.inr rfl) hb
    -- To the pass the inner document is a string, and it stands outside of it again.
    refine ⟨.initial .., ⟨⟨max m (s.levels + 1), by rw [← s.levels_eq]; omega, ?_⟩, ?_⟩, hAround⟩
    · rw [hPass, foldl_pass_open (.inr rfl) hb, hKey.foldl_pass, foldl_pass_skipBlank hq,
        foldl_pass_readText ht]
      rfl
    · intro hInner
      exact State.limited_of_opens hInner ho
  | leave hp hf hEnd hb =>
    obtain ⟨-, hAround⟩ := hs
    rw [hf] at hAround
    obtain ⟨⟨⟨m, hm, hPass⟩, hLimit⟩, hAround⟩ := hAround
    refine ⟨⟨⟨m, Nat.le_of_succ_le hm, ?_⟩, fun hInner => Nat.le_of_succ_le (hLimit hInner)⟩,
      hAround⟩
    rw [hPass, foldl_pass_close (.inr rfl) hb]
    rfl

theorem Reached.tracked (h : Reached text s) : s.Tracked text := by
  induction h with
  | initial => exact ⟨.initial .., rfl⟩
  | step _ hs ih => exact (moves_of_step hs).tracked ih

theorem deepest_le_foldl (d : Depth) (bytes : List UInt8) :
    d.deepest ≤ (bytes.foldl Depth.pass d).deepest := by
  induction bytes generalizing d with
  | nil => exact Nat.le_refl _
  | cons b bytes ih =>
    refine Nat.le_trans ?_ (ih _)
    unfold Depth.pass
    repeat' split
    all_goals first | exact Nat.le_refl _ | exact Nat.le_max_left _ _

theorem Tracked.levels_le {isInner : Bool} (h : Tracked text rest n isInner) :
    n ≤ nestingDepth text := by
  obtain ⟨⟨m, hm, hPass⟩, -⟩ := h
  rw [nestingDepth, hPass]
  exact Nat.le_trans hm (deepest_le_foldl ⟨.outside, n, m⟩ rest)

theorem exists_bracket_of_opens (h : s.opens = true) : ∃ b rest, skipBlank s.rest = b :: rest ∧
    (b = byte '[' ∨ b = byte '\x7b') := by
  simp only [State.opens, Bool.and_eq_true] at h
  obtain ⟨-, h⟩ := h
  cases hb : skipBlank s.rest with
  | nil => simp [hb] at h
  | cons b rest => exact ⟨b, rest, rfl, by simpa [hb] using h⟩

/-- The bracket that is about to be opened is one that the pass still has to count. -/
theorem State.Tracked.levels_le (h : s.Tracked text) :
    s.levels + s.opens.toNat ≤ nestingDepth s.text ∧
      (s.frames.any Frame.isEmbedded = true → s.levels + s.opens.toNat ≤ embeddedLevels) := by
  cases ho : s.opens with
  | false => exact ⟨h.here.levels_le, h.here.limited⟩
  | true =>
    refine ⟨?_, fun hAny => State.limited_of_opens hAny ho⟩
    obtain ⟨⟨⟨m, -, hPass⟩, -⟩, -⟩ := h
    obtain ⟨b, rest, hb, hBracket⟩ := exists_bracket_of_opens ho
    rw [nestingDepth, hPass, foldl_pass_open hBracket hb, Bool.toNat_true]
    exact Nat.le_trans (Nat.le_max_right m _)
      (deepest_le_foldl ⟨.outside, s.levels + 1, max m (s.levels + 1)⟩ rest)

theorem TrackedAround.length_le {current : List UInt8} {frames : List Frame}
    (h : TrackedAround text current frames) (n : Nat)
    (hHere : n + levelsIn frames ≤ nestingDepth current)
    (hLimit : frames.any Frame.isEmbedded = true → n + levelsIn frames ≤ embeddedLevels) :
    n + frames.length ≤
      nestingDepth text + embeddedLevels * frames.countP Frame.isEmbedded := by
  -- `n` levels of the current document have been counted; an embedded frame starts the outer one.
  induction frames generalizing current n with
  | nil =>
    cases h
    exact Nat.le_add_right_of_le hHere
  | cons f frames ih =>
    cases hf : f.isEmbedded with
    | true =>
      cases f with
      | embedded outer resume =>
        obtain ⟨hOuter, hAround⟩ := h
        have hn := hLimit (by simp [hf])
        have hRest := ih hAround 1 (by have := hOuter.levels_le; omega)
          (fun hAny => by have := hOuter.limited hAny; omega)
        simp only [List.countP_cons, Frame.isEmbedded, if_true, List.length_cons, Nat.mul_add]
        omega
      | array | object => cases hf
    | false =>
      have hAround : TrackedAround text current frames := by
        cases f with
        | embedded => cases hf
        | array | object => exact h
      rw [levelsIn_cons hf] at hHere hLimit
      have hRest := ih hAround (n + 1) (by omega) (fun hAny => by
        have := hLimit (by simp [hAny])
        omega)
      simp only [List.countP_cons, hf, List.length_cons]
      simpa [Nat.add_assoc, Nat.add_comm 1] using hRest

theorem Reached.depth_le (h : Reached text s) :
    s.depth ≤ nestingDepth text + embeddedLevels * s.embeddings := by
  obtain ⟨hHere, hLimit⟩ := h.tracked.levels_le
  have := h.tracked.around.length_le s.opens.toNat (by rw [← s.levels_eq]; omega)
    (fun hAny => by have := hLimit hAny; rw [← s.levels_eq]; omega)
  rw [State.depth, State.embeddings]
  omega

def State.repeatsKey (s : State) : Prop :=
  ∃ fields key frames, s.frames = .object fields key :: frames ∧ key ∈ fields.map (·.1)

def Phase.nesting : Phase → Nat
  | .value => 0
  | .after v => v.nesting

/-- The nesting of what the frames will hold around something of this nesting, going by what they
hold now. An embedded document stands for its value alone. -/
def nestingAround (inner : Nat) : List Frame → Nat
  | [] => inner
  | .array items :: frames => nestingAround (max inner (nestingOfItems items) + 1) frames
  | .object fields _ :: frames => nestingAround (max inner (nestingOfFields fields) + 1) frames
  | .embedded .. :: frames => nestingAround inner frames

def State.nesting (s : State) : Nat :=
  nestingAround s.phase.nesting s.frames

theorem nestingAround_max (a b : Nat) (frames : List Frame) :
    nestingAround (max a b) frames =
      max (nestingAround a frames) (b + frames.countP (!·.isEmbedded)) := by
  induction frames generalizing a b with
  | nil => rfl
  | cons f frames ih =>
    cases f with
    | array items =>
      have hMax : max (max a b) (nestingOfItems items) + 1 =
          max (max a (nestingOfItems items) + 1) (b + 1) := by omega
      simp only [nestingAround, hMax, ih, List.countP_cons, Frame.isEmbedded]
      simp only [Bool.not_false, if_true]
      omega
    | object fields key =>
      have hMax : max (max a b) (nestingOfFields fields) + 1 =
          max (max a (nestingOfFields fields) + 1) (b + 1) := by omega
      simp only [nestingAround, hMax, ih, List.countP_cons, Frame.isEmbedded]
      simp only [Bool.not_false, if_true]
      omega
    | embedded => simp [nestingAround, ih, Frame.isEmbedded]

theorem nestingAround_mono {a b : Nat} (h : a ≤ b) (frames : List Frame) :
    nestingAround a frames ≤ nestingAround b frames := by
  rw [← Nat.max_eq_right h, nestingAround_max]
  exact Nat.le_max_left _ _

theorem nestingOfItems_append (items items' : List Value) :
    nestingOfItems (items ++ items') = max (nestingOfItems items) (nestingOfItems items') := by
  induction items with
  | nil => simp [nestingOfItems]
  | cons item items ih => simp [nestingOfItems, ih, Nat.max_assoc]

theorem nestingOfItems_reverse (items : List Value) :
    nestingOfItems items.reverse = nestingOfItems items := by
  induction items with
  | nil => rfl
  | cons item items ih => simp [nestingOfItems_append, nestingOfItems, ih, Nat.max_comm]

theorem nestingOfFields_append (fields fields' : List (String × Value)) :
    nestingOfFields (fields ++ fields') =
      max (nestingOfFields fields) (nestingOfFields fields') := by
  induction fields with
  | nil => simp [nestingOfFields]
  | cons field fields ih => simp [nestingOfFields, ih, Nat.max_assoc]

theorem nestingOfFields_assign_le (key : String) (v : Value) (fields : List (String × Value)) :
    nestingOfFields (assign key v fields) ≤ max v.nesting (nestingOfFields fields) := by
  induction fields with
  | nil => simp [assign, nestingOfFields]
  | cons field fields ih =>
    unfold assign
    split <;> simp only [nestingOfFields] <;> omega

theorem nestingOfFields_assign_of_notMem {key : String} {fields : List (String × Value)}
    (h : key ∉ fields.map (·.1)) (v : Value) :
    nestingOfFields (assign key v fields) = max v.nesting (nestingOfFields fields) := by
  rw [assign_of_notMem h, nestingOfFields_append]
  simp only [nestingOfFields]
  omega

/-- The levels of a step that opens one, the frame that it opens included. -/
def State.rise (s : State) : Nat :=
  if s.opens then 1 + s.frames.countP (!·.isEmbedded) else 0

theorem nesting_of_assign {fields : List (String × Value)} {key : String} {frames : List Frame}
    (hf : s.frames = .object fields key :: frames) (v : Value) :
    nestingAround (nestingOfFields (assign key v fields) + 1) frames ≤
        nestingAround v.nesting s.frames ∧
      (¬ s.repeatsKey →
        nestingAround (nestingOfFields (assign key v fields) + 1) frames =
          nestingAround v.nesting s.frames) := by
  rw [hf, nestingAround]
  constructor
  · exact nestingAround_mono (Nat.succ_le_succ (nestingOfFields_assign_le key v fields)) frames
  · intro hKey
    have hNew : key ∉ fields.map (·.1) := fun hMem => hKey ⟨fields, key, frames, hf, hMem⟩
    rw [nestingOfFields_assign_of_notMem hNew]

theorem nesting_of_open (hp : s.phase = .value) (ho : s.opens = true) :
    nestingAround 1 s.frames = max s.nesting s.rise := by
  rw [State.nesting, hp, State.rise, if_pos ho]
  exact nestingAround_max 0 1 s.frames

theorem Within.nesting_le (h : Within s s') : s'.nesting ≤ max s.nesting s.rise ∧
    (¬ s.repeatsKey → s'.nesting = max s.nesting s.rise) := by
  have hEq (he : s'.nesting = max s.nesting s.rise) : s'.nesting ≤ max s.nesting s.rise ∧
      (¬ s.repeatsKey → s'.nesting = max s.nesting s.rise) :=
    ⟨Nat.le_of_eq he, fun _ => he⟩
  have hRise (ho : s.opens = false) : max s.nesting s.rise = s.nesting := by simp [State.rise, ho]
  cases h with
  | scalar hp hs =>
    refine hEq ?_
    rw [hRise hs.opens_eq, State.nesting, State.nesting, hp]
    generalize skipBlank s.rest = bytes at hs
    cases hs <;> rfl
  | emptyArray hp hb hFull =>
    exact hEq (nesting_of_open hp (State.opens_eq_true hp hFull (.inl rfl) hb))
  | openArray hp hb hFull =>
    exact hEq (nesting_of_open hp (State.opens_eq_true hp hFull (.inl rfl) hb))
  | emptyObject hp hb hFull =>
    exact hEq (nesting_of_open hp (State.opens_eq_true hp hFull (.inr rfl) hb))
  | openObject hp hb hFull =>
    exact hEq (nesting_of_open hp (State.opens_eq_true hp hFull (.inr rfl) hb))
  | nextItem hp hf =>
    refine hEq ?_
    rw [hRise (State.opens_of_after hp)]
    simp [State.nesting, hp, hf, Phase.nesting, nestingAround, nestingOfItems]
  | closeArray hp hf =>
    refine hEq ?_
    rw [hRise (State.opens_of_after hp)]
    simp only [State.nesting, hp, hf, Phase.nesting, nestingAround, Value.nesting,
      nestingOfItems_reverse, nestingOfItems]
  -- Where a key comes again the deeper of its values may be lost, so these two are not equations.
  | nextMember hp hf =>
    rw [hRise (State.opens_of_after hp)]
    simpa [State.nesting, hp, Phase.nesting, nestingAround] using nesting_of_assign hf _
  | closeObject hp hf =>
    rw [hRise (State.opens_of_after hp)]
    simpa [State.nesting, hp, Phase.nesting, Value.nesting] using nesting_of_assign hf _

theorem rise_le_depth (s : State) : s.rise ≤ s.depth := by
  have := List.countP_le_length (p := fun frame => !Frame.isEmbedded frame) (l := s.frames)
  unfold State.rise State.depth
  split
  · next ho =>
    rw [ho, Bool.toNat_true]
    omega
  · exact Nat.zero_le _

theorem Reached.nesting_le {bound : Nat} (hBound : ∀ s, Reached text s → s.depth ≤ bound)
    (h : Reached text s) : s.nesting ≤ bound := by
  induction h with
  | initial => exact Nat.zero_le _
  | @step s s' hr hs ih =>
    cases moves_of_step hs with
    | within h =>
      have := h.nesting_le.1
      have := rise_le_depth s
      have := hBound s hr
      omega
    | enter hp => simpa [State.nesting, nestingAround, hp] using ih
    | leave hp hf => simpa [State.nesting, nestingAround, hp, hf] using ih

/-- Reading a text neither enters embedded documents nor comes upon a key again. -/
def IsFaithful (text : List UInt8) : Prop :=
  ∀ s, Reached text s → s.embeddings = 0 ∧ ¬ s.repeatsKey

theorem countP_eq_levels (h : s.embeddings = 0) : s.frames.countP (!·.isEmbedded) = s.levels := by
  have hNone : ∀ f ∈ s.frames, (!f.isEmbedded) = true := by
    simpa [State.embeddings] using h
  rw [State.levels, List.takeWhile_eq_self_iff.mpr hNone, List.countP_eq_length.mpr hNone]

theorem Reached.foldl_pass (hFaithful : IsFaithful text) (h : Reached text s) :
    text.foldl Depth.pass .zero = s.rest.foldl Depth.pass ⟨.outside, s.levels, s.nesting⟩ := by
  induction h with
  | initial => rfl
  | @step s s' hr hs ih =>
    obtain ⟨hNone, hKey⟩ := hFaithful s hr
    cases moves_of_step hs with
    | within h =>
      rw [ih, h.foldl_pass, h.nesting_le.2 hKey, State.rise, countP_eq_levels hNone]
      split
      · rw [Nat.add_comm 1]
      · rw [Nat.max_zero]
    | enter =>
      have hInner := (hFaithful _ (.step hr hs)).1
      simp [State.embeddings, Frame.isEmbedded] at hInner
    | leave hp hf => simp [State.embeddings, hf, Frame.isEmbedded] at hNone

structure State.Quoteless (s : State) : Prop where
  rest : byte '"' ∉ s.rest
  frames : ∀ f ∈ s.frames, ∃ items, f = .array items

theorem Key.mem_quote {key : String} (h : Key rest key rest') : byte '"' ∈ rest := by
  obtain ⟨hQuote, -, -⟩ := h
  by_contra hNone
  exact notMem_of_skipBlank_eq hQuote hNone List.mem_cons_self

theorem Within.quoteless (h : Within s s') (hs : s.Quoteless) : s'.Quoteless := by
  obtain ⟨hRest, hFrames⟩ := hs
  have hBehind {b : UInt8} {rest rest' : List UInt8} (hb : skipBlank rest = b :: rest')
      (hNone : byte '"' ∉ rest) : byte '"' ∉ rest' :=
    fun hMem => notMem_of_skipBlank_eq hb hNone (List.mem_cons_of_mem b hMem)
  have hArrays {items : List Value} {frames : List Frame} (hf : s.frames = .array items :: frames) :
      ∀ f ∈ frames, ∃ items, f = .array items :=
    fun f hMem => hFrames f (hf ▸ List.mem_cons_of_mem _ hMem)
  have hNoObject {fields : List (String × Value)} {key : String} {frames : List Frame}
      (hf : s.frames = .object fields key :: frames) : False := by
    obtain ⟨items, hArray⟩ := hFrames _ (hf ▸ List.mem_cons_self)
    cases hArray
  cases h with
  | scalar hp hs =>
    refine ⟨?_, hFrames⟩
    have hNone := (passes_skipBlank s.rest).notMem hRest
    obtain ⟨hWord, -⟩ | ⟨taken, spelt, -, hText⟩ := hs.spelling
    · exact hWord.notMem hNone
    · exact absurd (hText ▸ List.mem_cons_self) hNone
  | emptyArray hp hb hFull hb' => exact ⟨hBehind hb' (hBehind hb hRest), hFrames⟩
  | openArray hp hb hFull hb' hne =>
    refine ⟨notMem_of_skipBlank_eq hb' (hBehind hb hRest), ?_⟩
    exact List.forall_mem_cons.mpr ⟨⟨[], rfl⟩, hFrames⟩
  | emptyObject hp hb hFull hb' => exact ⟨hBehind hb' (hBehind hb hRest), hFrames⟩
  | openObject hp hb hFull hKey => exact absurd hKey.mem_quote (hBehind hb hRest)
  | nextItem hp hf hb hb' hne =>
    refine ⟨notMem_of_skipBlank_eq hb' (hBehind hb hRest), ?_⟩
    exact List.forall_mem_cons.mpr ⟨⟨_, rfl⟩, hArrays hf⟩
  | closeArray hp hf hb => exact ⟨hBehind hb hRest, hArrays hf⟩
  | nextMember hp hf => exact (hNoObject hf).elim
  | closeObject hp hf => exact (hNoObject hf).elim

theorem Reached.quoteless (hText : byte '"' ∉ text) (h : Reached text s) : s.Quoteless := by
  induction h with
  | initial => exact ⟨hText, fun f hf => by cases hf⟩
  | @step s s' _ hs ih =>
    cases moves_of_step hs with
    | within h => exact h.quoteless ih
    | enter hp hb hFull hKey =>
      have hNone := notMem_of_skipBlank_eq hb ih.rest
      exact absurd (List.mem_cons_of_mem _ hKey.mem_quote) hNone
    | leave hp hf =>
      obtain ⟨items, hArray⟩ := ih.frames _ (hf ▸ List.mem_cons_self)
      cases hArray

theorem isFaithful_of_no_quote (hText : byte '"' ∉ text) : IsFaithful text := by
  intro s hs
  obtain ⟨-, hFrames⟩ := hs.quoteless hText
  constructor
  · rw [State.embeddings, List.countP_eq_zero]
    intro f hf
    obtain ⟨items, rfl⟩ := hFrames f hf
    exact Bool.false_ne_true
  · rintro ⟨fields, key, frames, hObject, -⟩
    obtain ⟨items, hArray⟩ := hFrames _ (hObject ▸ List.mem_cons_self)
    cases hArray

end SyntaxDrawing.Json

namespace SyntaxDrawing

open Json

theorem readDocument_eq_ok_iff {text : List UInt8} {v : Value} :
    readDocument text = .ok v ↔ nestingDepth text ≤ levelLimit ∧ read text = .ok v := by
  unfold readDocument
  simp only
  split
  · next h => simp [Nat.not_le_of_lt h]
  · next h =>
    cases hRead : read text with
    | error => simp
    | ok => simp [Nat.le_of_not_lt h]

theorem readDocument_eq_tooDeep_iff {text : List UInt8} {d : Nat} :
    readDocument text = .error (.tooDeep d) ↔ d = nestingDepth text ∧ levelLimit < d := by
  unfold readDocument
  simp only
  split
  · next h =>
    simp only [Except.error.injEq, DocumentFailure.tooDeep.injEq]
    omega
  · next h =>
    have hNot : ¬ (d = nestingDepth text ∧ levelLimit < d) := by omega
    cases hRead : read text <;> simp [hNot]

theorem nesting_of_readDocument {text : List UInt8} {v : Value} (h : readDocument text = .ok v)
    {bound : Nat} (hBound : ∀ s, Reached text s → s.depth ≤ bound) : v.nesting ≤ bound := by
  obtain ⟨last, hr, hp, hf, -⟩ := reached_of_read (readDocument_eq_ok_iff.1 h).2
  have := hr.nesting_le hBound
  rwa [State.nesting, hp, hf] at this

theorem nesting_of_isFaithful {text : List UInt8} {v : Value} (h : readDocument text = .ok v)
    (hFaithful : IsFaithful text) : v.nesting = nestingDepth text := by
  obtain ⟨last, hr, hp, hf, hEnd⟩ := reached_of_read (readDocument_eq_ok_iff.1 h).2
  have hPass := hr.foldl_pass hFaithful
  rw [foldl_pass_skipBlank hEnd, State.nesting, hp, hf] at hPass
  rw [nestingDepth, hPass]
  rfl

/-- The depth pass guards the reader: what it counts is the depth of a refusal, and it bounds what
is open at any moment of reading and the nesting of what is read. Each embedded document that is
open adds at most `embeddedLevels` to that. -/
theorem nestingDepth_guards_reader (text : List UInt8) :
    (∀ d, readDocument text = .error (.tooDeep d) ↔ d = nestingDepth text ∧ levelLimit < d) ∧
      (∀ s, Reached text s → s.depth ≤ nestingDepth text + embeddedLevels * s.embeddings) ∧
      ((∀ d, readDocument text ≠ .error (.tooDeep d)) →
        ∀ s, Reached text s → s.embeddings = 0 → s.depth ≤ levelLimit) ∧
      (∀ v, readDocument text = .ok v →
        (∀ k, (∀ s, Reached text s → s.embeddings ≤ k) →
          v.nesting ≤ nestingDepth text + embeddedLevels * k) ∧
        (IsFaithful text → v.nesting = nestingDepth text)) := by
  refine ⟨fun d => readDocument_eq_tooDeep_iff, fun s hr => hr.depth_le, fun hRead s hr hNone => ?_,
    fun v hv => ⟨fun k hk => ?_, nesting_of_isFaithful hv⟩⟩
  · have hDepth := hr.depth_le
    have hLimit : nestingDepth text ≤ levelLimit := by
      by_contra hDeep
      exact hRead _ (readDocument_eq_tooDeep_iff.2 ⟨rfl, Nat.lt_of_not_le hDeep⟩)
    rw [hNone] at hDepth
    omega
  · refine nesting_of_readDocument hv fun s hr => Nat.le_trans hr.depth_le ?_
    exact Nat.add_le_add_left (Nat.mul_le_mul_left _ (hk s hr)) _

/-- An object that stands for an embedded document nests as the document does, and not as it is
written: here twice, where the pass counts one level. -/
theorem nesting_of_embeddedBrackets :
    ∃ v, readDocument
        (Text.Utf8.encode "\x7b\"$serde_json::private::RawValue\":\"[[]]\"\x7d") = .ok v ∧
      nestingDepth
        (Text.Utf8.encode "\x7b\"$serde_json::private::RawValue\":\"[[]]\"\x7d") < v.nesting := by
  have hOpened : skipBlank
      (Text.Utf8.encode "\x7b\"$serde_json::private::RawValue\":\"[[]]\"\x7d") =
      byte '\x7b' :: Text.Utf8.encode "\"$serde_json::private::RawValue\":\"[[]]\"\x7d" := by
    decide +kernel
  have hKey : Key (Text.Utf8.encode "\"$serde_json::private::RawValue\":\"[[]]\"\x7d") embeddedKey
      (Text.Utf8.encode "\"[[]]\"\x7d") := by
    have hText : readText
        (Text.Utf8.encode "$serde_json::private::RawValue\":\"[[]]\"\x7d") =
        .ok (embeddedKey, Text.Utf8.encode ":\"[[]]\"\x7d") :=
      readText_eq_ok_iff.2 ⟨_, .of_plain (by decide +kernel), by decide +kernel⟩
    exact ⟨by decide +kernel, hText, by decide +kernel⟩
  have hQuote : skipBlank (Text.Utf8.encode "\"[[]]\"\x7d") =
      byte '"' :: Text.Utf8.encode "[[]]\"\x7d" := by
    decide +kernel
  have hContent : readText (Text.Utf8.encode "[[]]\"\x7d") =
      .ok ("[[]]", Text.Utf8.encode "\x7d") :=
    readText_eq_ok_iff.2 ⟨_, .of_plain (by decide +kernel), by decide +kernel⟩
  have hOuter : skipBlank (Text.Utf8.encode "[[]]") = byte '[' :: Text.Utf8.encode "[]]" := by
    decide +kernel
  have hInner : skipBlank (Text.Utf8.encode "[]]") = byte '[' :: Text.Utf8.encode "]]" := by
    decide +kernel
  have hClose : skipBlank (Text.Utf8.encode "]]") = byte ']' :: Text.Utf8.encode "]" := by
    decide +kernel
  have hClose' : skipBlank (Text.Utf8.encode "]") = byte ']' :: [] := by decide +kernel
  have hLeave : skipBlank (Text.Utf8.encode "\x7d") = byte '\x7d' :: [] := by decide +kernel
  refine ⟨.array [.array []], readDocument_eq_ok_iff.2 ⟨by decide +kernel, ?_⟩, by decide +kernel⟩
  rw [Json.read, (Moves.enter rfl hOpened rfl hKey hQuote hContent).run_eq,
    (Moves.within (.openArray rfl hOuter rfl hInner (by decide))).run_eq,
    (Moves.within (.emptyArray rfl hInner rfl hClose)).run_eq,
    (Moves.within (.closeArray rfl rfl hClose')).run_eq, (Moves.leave rfl rfl rfl hLeave).run_eq,
    (Moves.finish rfl rfl rfl).run_eq_ok]
  rfl

end SyntaxDrawing
