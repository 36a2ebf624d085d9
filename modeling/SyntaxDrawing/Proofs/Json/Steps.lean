import SyntaxDrawing.Json.Reader
import SyntaxDrawing.Proofs.Json.Lexeme

/-!
# The steps of the reader

`Moves` lists the ways in which the reader goes on: those within one document, and those that enter
and leave an embedded one. By `moves_of_step` and `Moves.step_eq` these are the steps that succeed,
so what holds of every reached state is shown by cases on `Within` and `Moves`.
-/

namespace SyntaxDrawing.Json

inductive Scalar : List UInt8 → Value → List UInt8 → Prop
  | null {rest rest' : List UInt8} : readWord (Text.Utf8.encode "ull") rest = .ok rest' →
      Scalar (byte 'n' :: rest) .null rest'
  | yes {rest rest' : List UInt8} : readWord (Text.Utf8.encode "rue") rest = .ok rest' →
      Scalar (byte 't' :: rest) (.bool true) rest'
  | no {rest rest' : List UInt8} : readWord (Text.Utf8.encode "alse") rest = .ok rest' →
      Scalar (byte 'f' :: rest) (.bool false) rest'
  | negative {rest rest' : List UInt8} {n : Number} : readNumber true rest = .ok (n, rest') →
      Scalar (byte '-' :: rest) (.number n) rest'
  | number {b : UInt8} {rest rest' : List UInt8} {n : Number} : isDigitByte b = true →
      readNumber false (b :: rest) = .ok (n, rest') → Scalar (b :: rest) (.number n) rest'
  | text {rest rest' : List UInt8} {content : String} : readText rest = .ok (content, rest') →
      Scalar (byte '"' :: rest) (.string content) rest'

inductive Key (rest : List UInt8) (key : String) (rest' : List UInt8) : Prop
  | mk {quoted behind : List UInt8} : skipBlank rest = byte '"' :: quoted →
      readText quoted = .ok (key, behind) → skipBlank behind = byte ':' :: rest' →
      Key rest key rest'

inductive Within (s : State) : State → Prop
  | scalar {v : Value} {rest : List UInt8} : s.phase = .value → Scalar (skipBlank s.rest) v rest →
      Within s { s with phase := .after v, rest }
  | emptyArray {opened rest : List UInt8} : s.phase = .value →
      skipBlank s.rest = byte '[' :: opened → s.isFull = false →
      skipBlank opened = byte ']' :: rest → Within s { s with phase := .after (.array []), rest }
  | openArray {b : UInt8} {opened rest : List UInt8} : s.phase = .value →
      skipBlank s.rest = byte '[' :: opened → s.isFull = false →
      skipBlank opened = b :: rest → b ≠ byte ']' →
      Within s { s with frames := .array [] :: s.frames, phase := .value, rest := b :: rest }
  | emptyObject {opened rest : List UInt8} : s.phase = .value →
      skipBlank s.rest = byte '\x7b' :: opened → s.isFull = false →
      skipBlank opened = byte '\x7d' :: rest →
      Within s { s with phase := .after (.object []), rest }
  | openObject {key : String} {opened rest : List UInt8} : s.phase = .value →
      skipBlank s.rest = byte '\x7b' :: opened → s.isFull = false →
      Key opened key rest → key ≠ embeddedKey →
      Within s { s with frames := .object [] key :: s.frames, phase := .value, rest }
  | nextItem {v : Value} {items : List Value} {frames : List Frame} {b : UInt8}
      {behind rest : List UInt8} : s.phase = .after v → s.frames = .array items :: frames →
      skipBlank s.rest = byte ',' :: behind → skipBlank behind = b :: rest → b ≠ byte ']' →
      Within s
        { s with frames := .array (v :: items) :: frames, phase := .value, rest := b :: rest }
  | closeArray {v : Value} {items : List Value} {frames : List Frame} {rest : List UInt8} :
      s.phase = .after v → s.frames = .array items :: frames →
      skipBlank s.rest = byte ']' :: rest →
      Within s { s with frames, phase := .after (.array (v :: items).reverse), rest }
  | nextMember {v : Value} {fields : List (String × Value)} {key key' : String}
      {frames : List Frame} {behind rest : List UInt8} : s.phase = .after v →
      s.frames = .object fields key :: frames → skipBlank s.rest = byte ',' :: behind →
      Key behind key' rest →
      Within s
        { s with frames := .object (assign key v fields) key' :: frames, phase := .value, rest }
  | closeObject {v : Value} {fields : List (String × Value)} {key : String} {frames : List Frame}
      {rest : List UInt8} : s.phase = .after v → s.frames = .object fields key :: frames →
      skipBlank s.rest = byte '\x7d' :: rest →
      Within s { s with frames, phase := .after (.object (assign key v fields)), rest }

inductive Moves (s : State) : Progress → Prop
  | within {s' : State} : Within s s' → Moves s (.running s')
  | enter {opened behind quoted resume : List UInt8} {content : String} : s.phase = .value →
      skipBlank s.rest = byte '\x7b' :: opened → s.isFull = false → Key opened embeddedKey behind →
      skipBlank behind = byte '"' :: quoted → readText quoted = .ok (content, resume) →
      Moves s (.running ⟨Text.Utf8.encode content, .embedded s.text resume :: s.frames, .value,
        Text.Utf8.encode content⟩)
  | leave {v : Value} {text resume rest : List UInt8} {frames : List Frame} : s.phase = .after v →
      s.frames = .embedded text resume :: frames → skipBlank s.rest = [] →
      skipBlank resume = byte '\x7d' :: rest → Moves s (.running ⟨text, frames, .after v, rest⟩)
  | finish {v : Value} : s.phase = .after v → s.frames = [] → skipBlank s.rest = [] →
      Moves s (.finished v)

variable {s s' : State} {p : Progress} {v : Value} {rest rest' : List UInt8}

/-- A scalar is a word or a number, or else a string. -/
theorem Scalar.spelling (h : Scalar rest v rest') :
    (Passes isWordByte rest rest' ∧ rest'.length < rest.length) ∨
      ∃ taken spelt, Quoted taken spelt ∧ rest = byte '"' :: (taken ++ rest') := by
  cases h with
  | null hw =>
    exact .inl ⟨.cons (by decide) (passes_readWord (by decide +kernel) hw),
      Nat.lt_succ_of_le (readWord_length hw)⟩
  | yes hw =>
    exact .inl ⟨.cons (by decide) (passes_readWord (by decide +kernel) hw),
      Nat.lt_succ_of_le (readWord_length hw)⟩
  | no hw =>
    exact .inl ⟨.cons (by decide) (passes_readWord (by decide +kernel) hw),
      Nat.lt_succ_of_le (readWord_length hw)⟩
  | negative hn =>
    exact .inl ⟨.cons (by decide) (passes_readNumber hn), Nat.lt_succ_of_lt (readNumber_length hn)⟩
  | number _ hn => exact .inl ⟨passes_readNumber hn, readNumber_length hn⟩
  | text ht =>
    obtain ⟨taken, hTaken, rfl⟩ := readText_eq_ok_iff.1 ht
    exact .inr ⟨taken, _, hTaken, rfl⟩

theorem word_eq_ok (letters : String) (h : s.word letters v rest = .ok p) :
    ∃ rest', readWord (Text.Utf8.encode letters) rest = .ok rest' ∧
      p = .running { s with phase := .after v, rest := rest' } := by
  unfold State.word at h
  split at h
  · exact absurd h State.fail_ne_ok
  · next rest' hw =>
    cases h
    exact ⟨rest', hw, rfl⟩

theorem number_eq_ok {negative : Bool} (h : s.number negative rest = .ok p) :
    ∃ n rest', readNumber negative rest = .ok (n, rest') ∧
      p = .running { s with phase := .after (.number n), rest := rest' } := by
  unfold State.number at h
  split at h
  · exact absurd h State.fail_ne_ok
  · next n rest' hn =>
    cases h
    exact ⟨n, rest', hn, rfl⟩

theorem enter_eq_ok (h : s.enter rest = .ok p) :
    ∃ quoted content resume, skipBlank rest = byte '"' :: quoted ∧
      readText quoted = .ok (content, resume) ∧
      p = .running ⟨Text.Utf8.encode content, .embedded s.text resume :: s.frames, .value,
        Text.Utf8.encode content⟩ := by
  unfold State.enter at h
  split at h
  · exact absurd h State.fail_ne_ok
  · next hb =>
    split at h
    · next hq =>
      subst hq
      split at h
      · exact absurd h State.fail_ne_ok
      · next content resume ht =>
        cases h
        exact ⟨_, content, resume, hb, ht, rfl⟩
    · exact absurd h State.fail_ne_ok

theorem member_eq_ok {isFirst : Bool} {fields : List (String × Value)} {quoted : List UInt8}
    (hq : skipBlank rest = byte '"' :: quoted) (h : s.member isFirst fields quoted = .ok p) :
    ∃ key rest', Key rest key rest' ∧
      ((isFirst = true ∧ key = embeddedKey ∧ s.enter rest' = .ok p) ∨
        ((isFirst = true → key ≠ embeddedKey) ∧
          p = .running { s with
            frames := .object fields key :: s.frames, phase := .value, rest := rest' })) := by
  unfold State.member at h
  split at h
  · exact absurd h State.fail_ne_ok
  · next key behind ht =>
    split at h
    · exact absurd h State.fail_ne_ok
    · next rest' hb =>
      split at h
      · next hc =>
        subst hc
        refine ⟨key, rest', ⟨hq, ht, hb⟩, ?_⟩
        split at h
        · next he => exact .inl (by simpa [and_assoc, h] using he)
        · next he =>
          cases h
          exact .inr ⟨by simpa using he, rfl⟩
      · exact absurd h State.fail_ne_ok

theorem moves_of_begin (hp : s.phase = .value) (h : s.begin = .ok p) : Moves s p := by
  unfold State.begin at h
  split at h
  · exact absurd h State.fail_ne_ok
  next b rest hb =>
  split at h
  · next hc =>
    subst hc
    obtain ⟨rest', hw, rfl⟩ := word_eq_ok _ h
    exact .within (.scalar hp (hb ▸ .null hw))
  split at h
  · next hc =>
    subst hc
    obtain ⟨rest', hw, rfl⟩ := word_eq_ok _ h
    exact .within (.scalar hp (hb ▸ .yes hw))
  split at h
  · next hc =>
    subst hc
    obtain ⟨rest', hw, rfl⟩ := word_eq_ok _ h
    exact .within (.scalar hp (hb ▸ .no hw))
  split at h
  · next hc =>
    subst hc
    obtain ⟨n, rest', hn, rfl⟩ := number_eq_ok h
    exact .within (.scalar hp (hb ▸ .negative hn))
  split at h
  · next hc =>
    obtain ⟨n, rest', hn, rfl⟩ := number_eq_ok h
    exact .within (.scalar hp (hb ▸ .number hc hn))
  split at h
  · next hc =>
    subst hc
    split at h
    · exact absurd h State.fail_ne_ok
    · next ht =>
      cases h
      exact .within (.scalar hp (hb ▸ .text ht))
  split at h
  · next hc =>
    split at h
    · exact absurd h State.fail_ne_ok
    next hFull =>
    have hFull : s.isFull = false := by simpa using hFull
    split at h
    · next hArray =>
      subst hArray
      unfold State.openArray at h
      split at h
      · exact absurd h State.fail_ne_ok
      · next hb' =>
        split at h
        · next hClose =>
          subst hClose
          cases h
          exact .within (.emptyArray hp hb hFull hb')
        · next hOpen =>
          cases h
          exact .within (.openArray hp hb hFull hb' hOpen)
    · next hNot =>
      obtain rfl := hc.resolve_left hNot
      unfold State.openObject at h
      split at h
      · exact absurd h State.fail_ne_ok
      · next hb' =>
        split at h
        · next hClose =>
          subst hClose
          cases h
          exact .within (.emptyObject hp hb hFull hb')
        · split at h
          · next hq =>
            subst hq
            obtain ⟨key, rest', hKey, ⟨-, rfl, he⟩ | ⟨hne, rfl⟩⟩ := member_eq_ok hb' h
            · obtain ⟨quoted, content, resume, hq, ht, rfl⟩ := enter_eq_ok he
              exact .enter hp hb hFull hKey hq ht
            · exact .within (.openObject hp hb hFull hKey (hne rfl))
          · exact absurd h State.fail_ne_ok
  · exact absurd h State.fail_ne_ok

theorem moves_of_afterItem {items : List Value} {frames : List Frame} (hp : s.phase = .after v)
    (hf : s.frames = .array items :: frames) (h : s.afterItem (v :: items) frames = .ok p) :
    Moves s p := by
  unfold State.afterItem at h
  split at h
  · exact absurd h State.fail_ne_ok
  next hb =>
  split at h
  · next hc =>
    subst hc
    split at h
    · exact absurd h State.fail_ne_ok
    · next hb' =>
      split at h
      · exact absurd h State.fail_ne_ok
      · next hne =>
        cases h
        exact .within (.nextItem hp hf hb hb' hne)
  · split at h
    · next hc =>
      subst hc
      cases h
      exact .within (.closeArray hp hf hb)
    · exact absurd h State.fail_ne_ok

theorem moves_of_afterMember {fields : List (String × Value)} {key : String} {frames : List Frame}
    (hp : s.phase = .after v) (hf : s.frames = .object fields key :: frames)
    (h : s.afterMember (assign key v fields) frames = .ok p) : Moves s p := by
  unfold State.afterMember at h
  split at h
  · exact absurd h State.fail_ne_ok
  next hb =>
  split at h
  · next hc =>
    subst hc
    split at h
    · exact absurd h State.fail_ne_ok
    · next hb' =>
      split at h
      · next hq =>
        subst hq
        obtain ⟨key', rest', hKey, ⟨hFirst, -, -⟩ | ⟨-, rfl⟩⟩ := member_eq_ok hb' h
        · cases hFirst
        · exact .within (.nextMember hp hf hb hKey)
      · split at h <;> exact absurd h State.fail_ne_ok
  · split at h
    · next hc =>
      subst hc
      cases h
      exact .within (.closeObject hp hf hb)
    · exact absurd h State.fail_ne_ok

theorem atEnd_eq_ok_iff {u : Unit} : s.atEnd = .ok u ↔ skipBlank s.rest = [] := by
  unfold State.atEnd
  split
  · next h => simp [h]
  · next h => simp [h, State.fail]

theorem moves_of_step (h : s.step = .ok p) : Moves s p := by
  unfold State.step at h
  split at h
  · next hp => exact moves_of_begin hp h
  · next v hp =>
    split at h
    · next hf =>
      cases hEnd : s.atEnd with
      | error f =>
        rw [hEnd] at h
        cases h
      | ok u =>
        rw [hEnd] at h
        cases h
        exact .finish hp hf (atEnd_eq_ok_iff.1 hEnd)
    · next hf => exact moves_of_afterItem hp hf h
    · next hf => exact moves_of_afterMember hp hf h
    · next hf =>
      split at h
      · cases h
      · next hEnd =>
        unfold State.leave at h
        split at h
        · exact absurd h State.fail_ne_ok
        · next hb =>
          split at h
          · next hc =>
            subst hc
            cases h
            exact .leave hp hf (atEnd_eq_ok_iff.1 hEnd) hb
          · split at h <;> exact absurd h State.fail_ne_ok

theorem Scalar.begin_eq (h : Scalar (skipBlank s.rest) v rest) :
    s.begin = .ok (.running { s with phase := .after v, rest }) := by
  unfold State.begin
  generalize skipBlank s.rest = bytes at h ⊢
  cases h with
  | null hw => simp [State.word, hw, State.deliver]
  | yes hw =>
    have hne : byte 't' ≠ byte 'n' := by decide
    simp [hne, State.word, hw, State.deliver]
  | no hw =>
    have hne : byte 'f' ≠ byte 'n' ∧ byte 'f' ≠ byte 't' := by decide
    simp [hne, State.word, hw, State.deliver]
  | negative hn =>
    have hne : byte '-' ≠ byte 'n' ∧ byte '-' ≠ byte 't' ∧ byte '-' ≠ byte 'f' := by decide
    simp [hne, State.number, hn, State.deliver]
  | @number b rest _ _ hDigit hn =>
    have hne (c : Char) (hc : isDigitByte (byte c) = false) : b ≠ byte c :=
      ne_byte_of_isDigitByte hDigit hc
    simp [hne 'n' (by decide), hne 't' (by decide), hne 'f' (by decide), hne '-' (by decide),
      hDigit, State.number, hn, State.deliver]
  | text ht =>
    have hne : byte '"' ≠ byte 'n' ∧ byte '"' ≠ byte 't' ∧ byte '"' ≠ byte 'f' ∧
        byte '"' ≠ byte '-' ∧ isDigitByte (byte '"') = false := by decide
    simp [hne, ht, State.deliver]

theorem begin_eq_openArray (hb : skipBlank s.rest = byte '[' :: rest) (hFull : s.isFull = false) :
    s.begin = s.openArray rest := by
  have hne : byte '[' ≠ byte 'n' ∧ byte '[' ≠ byte 't' ∧ byte '[' ≠ byte 'f' ∧
      byte '[' ≠ byte '-' ∧ isDigitByte (byte '[') = false ∧ byte '[' ≠ byte '"' := by decide
  simp [State.begin, hb, hne, hFull]

theorem begin_eq_openObject (hb : skipBlank s.rest = byte '\x7b' :: rest)
    (hFull : s.isFull = false) : s.begin = s.openObject rest := by
  have hne : byte '\x7b' ≠ byte 'n' ∧ byte '\x7b' ≠ byte 't' ∧ byte '\x7b' ≠ byte 'f' ∧
      byte '\x7b' ≠ byte '-' ∧ isDigitByte (byte '\x7b') = false ∧ byte '\x7b' ≠ byte '"' ∧
      byte '\x7b' ≠ byte '[' := by decide
  simp [State.begin, hb, hne, hFull]

theorem Key.openObject_eq {key : String} (h : Key rest key rest') (hne : key ≠ embeddedKey) :
    s.openObject rest =
      .ok (.running
        { s with frames := .object [] key :: s.frames, phase := .value, rest := rest' }) := by
  obtain ⟨hq, ht, hb⟩ := h
  have hQuote : byte '"' ≠ byte '\x7d' := by decide
  simp [State.openObject, hq, hQuote, State.member, ht, hb, hne]

theorem Key.afterMember_eq {fields : List (String × Value)} {key : String} {frames : List Frame}
    {behind : List UInt8} (h : Key behind key rest') (hb : skipBlank s.rest = byte ',' :: behind) :
    s.afterMember fields frames =
      .ok (.running
        { s with frames := .object fields key :: frames, phase := .value, rest := rest' }) := by
  obtain ⟨hq, ht, hc⟩ := h
  simp [State.afterMember, hb, hq, State.member, ht, hc]

theorem Within.step_eq (h : Within s s') : s.step = .ok (.running s') := by
  cases h with
  | scalar hp hs => simp only [State.step, hp, hs.begin_eq]
  | emptyArray hp hb hFull hb' =>
    simp only [State.step, hp, begin_eq_openArray hb hFull, State.openArray, hb', if_true,
      State.deliver]
  | openArray hp hb hFull hb' hne =>
    simp only [State.step, hp, begin_eq_openArray hb hFull, State.openArray, hb', if_neg hne]
  | emptyObject hp hb hFull hb' =>
    simp only [State.step, hp, begin_eq_openObject hb hFull, State.openObject, hb', if_true,
      State.deliver]
  | openObject hp hb hFull hKey hne =>
    simp only [State.step, hp, begin_eq_openObject hb hFull, hKey.openObject_eq hne]
  | nextItem hp hf hb hb' hne =>
    simp only [State.step, hp, hf, State.afterItem, hb, hb', if_true, if_neg hne]
  | closeArray hp hf hb =>
    have hne : byte ']' ≠ byte ',' := by decide
    simp only [State.step, hp, hf, State.afterItem, hb, if_neg hne, if_true, State.deliver]
  | nextMember hp hf hb hKey => simp only [State.step, hp, hf, hKey.afterMember_eq hb]
  | closeObject hp hf hb =>
    have hne : byte '\x7d' ≠ byte ',' := by decide
    simp only [State.step, hp, hf, State.afterMember, hb, if_neg hne, if_true, State.deliver]

theorem Moves.step_eq (h : Moves s p) : s.step = .ok p := by
  cases h with
  | within h => exact h.step_eq
  | enter hp hb hFull hKey hq ht =>
    obtain ⟨hq', ht', hc⟩ := hKey
    have hQuote : byte '"' ≠ byte '\x7d' := by decide
    simp [State.step, hp, begin_eq_openObject hb hFull, State.openObject, hq', hQuote, State.member,
      ht', hc, State.enter, hq, ht]
  | leave hp hf hEnd hb =>
    simp only [State.step, hp, hf, State.atEnd, hEnd, State.leave, hb, if_true, State.deliver]
  | finish hp hf hEnd => simp only [State.step, hp, hf, State.atEnd, hEnd, Except.map]

theorem Moves.run_eq (h : Moves s (.running s')) : s.run = s'.run := by
  rw [State.run]
  split
  · next hs => rw [h.step_eq] at hs; cases hs
  · next hs => rw [h.step_eq] at hs; cases hs
  · next hs => rw [h.step_eq] at hs; cases hs; rfl

theorem Moves.run_eq_ok (h : Moves s (.finished v)) : s.run = .ok v := by
  rw [State.run]
  split
  · next hs => rw [h.step_eq] at hs; cases hs
  · next hs => rw [h.step_eq] at hs; cases hs; rfl
  · next hs => rw [h.step_eq] at hs; cases hs

def Phase.awaits : Phase → Bool
  | .value => true
  | .after _ => false

/-- A state that the reader comes through on a text, whether or not it reads it to the end. -/
inductive Reached (text : List UInt8) : State → Prop
  | initial : Reached text (.initial text)
  | step {s s' : State} : Reached text s → s.step = .ok (.running s') → Reached text s'

theorem reached_of_run {text : List UInt8} (hr : Reached text s) (h : s.run = .ok v) :
    ∃ last, Reached text last ∧ Moves last (.finished v) := by
  fun_induction State.run s with
  | case1 => cases h
  | case2 s v' hs =>
    cases h
    exact ⟨s, hr, moves_of_step hs⟩
  | case3 s s' hs ih => exact ih (.step hr hs) h

/-- Whatever is read is the value of a last state. -/
theorem reached_of_read {text : List UInt8} (h : read text = .ok v) :
    ∃ last, Reached text last ∧ last.phase = .after v ∧ last.frames = [] ∧
      skipBlank last.rest = [] := by
  obtain ⟨last, hr, hLast⟩ := reached_of_run .initial h
  cases hLast with
  | finish hp hf hEnd => exact ⟨last, hr, hp, hf, hEnd⟩

end SyntaxDrawing.Json
