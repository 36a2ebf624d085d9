import SyntaxDrawing.Proofs.Json.ReadInduction
import SyntaxDrawing.Proofs.Json.Spelling
import Mathlib.Logic.Relation

/-!
# What is written is read back

`Spells` relates bytes to the value that the reader takes them for, wherever it awaits one. Brackets
around such bytes, with blanks and commas between them, spell arrays and objects, as long as keys
differ and no object stands for an embedded document.
-/

namespace SyntaxDrawing.Json

open Relation

open Text.Utf8 (encode encode_append encode_eq_flatMap)

/-- What stands in a value: the value itself, and what stands in its items and members. -/
inductive Value.Contains : Value → Value → Prop
  | self (v : Value) : Contains v v
  | item {items : List Value} {item w : Value} : item ∈ items → Contains item w →
      Contains (.array items) w
  | member {fields : List (String × Value)} {m : String × Value} {w : Value} : m ∈ fields →
      Contains m.2 w → Contains (.object fields) w

namespace Value

def HasDistinctKeys (v : Value) : Prop :=
  ∀ fields, v.Contains (.object fields) → (fields.map (·.1)).Nodup

def HasShortIntegers (v : Value) : Prop :=
  ∀ n, v.Contains (.number n) → ∃ i, n = .integer i ∧ IsShortInteger i

/-- No object begins with the key of embedded documents. -/
def StandsForItself (v : Value) : Prop :=
  ∀ fields, v.Contains (.object fields) → (fields.map (·.1)).head? ≠ some embeddedKey

theorem Contains.trans {u v w : Value} (h : u.Contains v) (h' : v.Contains w) : u.Contains w := by
  induction h with
  | self => exact h'
  | item hItem _ ih => exact .item hItem (ih h')
  | member hMember _ ih => exact .member hMember (ih h')

section

variable {w : Value}

@[simp]
theorem contains_number {n : Number} : (number n).Contains w ↔ w = number n :=
  ⟨fun h => by cases h; rfl, fun h => h ▸ .self _⟩

@[simp]
theorem contains_string {s : String} : (string s).Contains w ↔ w = string s :=
  ⟨fun h => by cases h; rfl, fun h => h ▸ .self _⟩

@[simp]
theorem contains_array {items : List Value} :
    (array items).Contains w ↔ w = array items ∨ ∃ item ∈ items, item.Contains w := by
  constructor
  · rintro (_ | ⟨hItem, hMem⟩)
    · exact .inl rfl
    · exact .inr ⟨_, hItem, hMem⟩
  · rintro (rfl | ⟨item, hItem, hMem⟩)
    · exact .self _
    · exact .item hItem hMem

@[simp]
theorem contains_object {fields : List (String × Value)} :
    (object fields).Contains w ↔ w = object fields ∨ ∃ m ∈ fields, m.2.Contains w := by
  constructor
  · rintro (_ | _ | ⟨hMember, hMem⟩)
    · exact .inl rfl
    · exact .inr ⟨_, hMember, hMem⟩
  · rintro (rfl | ⟨m, hMember, hMem⟩)
    · exact .self _
    · exact .member hMember hMem

end

section

variable {v w : Value} (h : v.Contains w)

include h

theorem HasDistinctKeys.part (hv : v.HasDistinctKeys) : w.HasDistinctKeys :=
  fun fields hMem => hv fields (h.trans hMem)

theorem HasShortIntegers.part (hv : v.HasShortIntegers) : w.HasShortIntegers :=
  fun n hMem => hv n (h.trans hMem)

theorem StandsForItself.part (hv : v.StandsForItself) : w.StandsForItself :=
  fun fields hMem => hv fields (h.trans hMem)

end

/-- What is read satisfies two of the three conditions under which it can be written and read
back. -/
theorem conditions_inherited : Inherited fun v => v.HasDistinctKeys ∧ v.StandsForItself := by
  constructor
  · intro rest v rest' hScalar
    constructor <;> intro fields hMem <;> cases hScalar <;> cases hMem
  · intro items hItems
    constructor
    · rintro fields ⟨⟩
      next hItem hMem => exact (hItems _ hItem).1 fields hMem
    · rintro fields ⟨⟩
      next hItem hMem => exact (hItems _ hItem).2 fields hMem
  · intro fields hKeys hLead hMembers
    constructor
    · rintro fields' ⟨⟩
      · exact hKeys
      · next hMember hMem => exact (hMembers _ hMember).1 fields' hMem
    · rintro fields' ⟨⟩
      · exact hLead
      · next hMember hMem => exact (hMembers _ hMember).2 fields' hMem

end Value

variable {line line' rest : List UInt8}

def AllBlank (line : List UInt8) : Prop :=
  ∀ b ∈ line, isBlankByte b = true

theorem AllBlank.skipBlank_append (h : AllBlank line) (rest : List UInt8) :
    skipBlank (line ++ rest) = skipBlank rest :=
  List.dropWhile_append_of_pos h

theorem AllBlank.skipBlank_cons (h : AllBlank line) {b : UInt8} (hb : isBlankByte b = false)
    (rest : List UInt8) : skipBlank (line ++ b :: rest) = b :: rest := by
  rw [h.skipBlank_append, skipBlank_of_not_blank hb]

theorem Ends.cons {b : UInt8} (hDigit : isDigitByte b = false) (hPoint : b ≠ byte '.')
    (hLetter : b ≠ byte 'e') (hLetter' : b ≠ byte 'E') (rest : List UInt8) : Ends (b :: rest) := by
  constructor <;> simp [*]

theorem Ends.blank_append (h : Ends rest) (hBlank : AllBlank line) : Ends (line ++ rest) := by
  cases line with
  | nil => exact h
  | cons b line =>
    have hb := hBlank b List.mem_cons_self
    have hne {c : Char} (hc : isBlankByte (byte c) = false) : b ≠ byte c :=
      beq_eq_false_iff_ne.mp (ne_of_isBlankByte hb hc)
    exact .cons (not_isDigitByte_of_isBlankByte hb) (hne (by decide)) (hne (by decide))
      (hne (by decide)) _

structure Spells (bytes : List UInt8) (v : Value) : Prop where
  head : ∃ b tail, bytes = b :: tail ∧ isBlankByte b = false ∧ b ≠ byte ']'
  reads : ∀ (text : List UInt8) (frames : List Frame) (ahead rest : List UInt8),
    (∀ f ∈ frames, f.isEmbedded = false) → skipBlank ahead = bytes ++ rest → Ends rest →
    ReflTransGen Within ⟨text, frames, .value, ahead⟩ ⟨text, frames, .after v, rest⟩

theorem Spells.exists_cons {bytes : List UInt8} {v : Value} (h : Spells bytes v)
    (rest : List UInt8) :
    ∃ b tail, bytes ++ rest = b :: tail ∧ isBlankByte b = false ∧ b ≠ byte ']' := by
  obtain ⟨b, tail, rfl, hb, hOpen⟩ := h.head
  exact ⟨b, tail ++ rest, rfl, hb, hOpen⟩

theorem Spells.skipBlank_eq {bytes : List UInt8} {v : Value} (h : Spells bytes v)
    (hLine : AllBlank line) (rest : List UInt8) :
    skipBlank (line ++ (bytes ++ rest)) = bytes ++ rest := by
  obtain ⟨b, tail, hBytes, hb, -⟩ := h.exists_cons rest
  rw [hBytes, hLine.skipBlank_cons hb]

theorem Scalar.exists_cons {bytes : List UInt8} {v : Value} (h : Scalar bytes v rest) :
    ∃ b tail, bytes = b :: tail ∧ isBlankByte b = false ∧ b ≠ byte ']' := by
  cases h with
  | number hDigit =>
    exact ⟨_, _, rfl, not_isBlankByte_of_isWordByte (isWordByte_of_isDigitByte hDigit),
      ne_byte_of_isDigitByte hDigit (by decide)⟩
  | _ => exact ⟨_, _, rfl, by decide, by decide⟩

def SpellsScalar (bytes : List UInt8) (v : Value) : Prop :=
  ∀ rest, Ends rest → Scalar (bytes ++ rest) v rest

theorem SpellsScalar.spells {bytes : List UInt8} {v : Value} (h : SpellsScalar bytes v) :
    Spells bytes v := by
  constructor
  · have hScalar := (h [] .nil).exists_cons
    rwa [List.append_nil] at hScalar
  · intro text frames ahead rest _ hAhead hEnds
    exact .single (.scalar rfl (hAhead ▸ h rest hEnds))

theorem spellsScalar_null : SpellsScalar (encode "null") .null :=
  fun _ _ => .null (readWord_eq_ok_iff.mpr rfl)

theorem spellsScalar_bool (b : Bool) :
    SpellsScalar (encode (if b then "true" else "false")) (.bool b) := by
  intro rest _
  cases b with
  | true => exact .yes (readWord_eq_ok_iff.mpr rfl)
  | false => exact .no (readWord_eq_ok_iff.mpr rfl)

theorem spellsScalar_integerText {i : Int} (h : IsShortInteger i) :
    SpellsScalar (encode (Decimal.integerText i)) (.number (.integer i)) :=
  fun _ hEnds => scalar_integerText h hEnds

theorem spellsScalar_quote (s : String) : SpellsScalar (encode (quote s)) (.string s) := by
  obtain ⟨taken, hBytes, hTaken⟩ := encode_quote s
  intro rest _
  rw [hBytes, List.cons_append]
  exact .text (readText_eq_ok_iff.mpr ⟨taken, hTaken, rfl⟩)

/-- What is written for a member: the key, the colon with blanks behind it, and the value. -/
def memberBytes (gap : List UInt8) (key : String) (bytes : List UInt8) : List UInt8 :=
  encode (quote key) ++ byte ':' :: (gap ++ bytes)

theorem key_of_memberBytes (hLine : AllBlank line) (gap : List UInt8) (key : String)
    (bytes rest : List UInt8) :
    Key (line ++ (memberBytes gap key bytes ++ rest)) key (gap ++ (bytes ++ rest)) := by
  obtain ⟨taken, hBytes, hTaken⟩ := encode_quote key
  have hQuote : skipBlank (line ++ (memberBytes gap key bytes ++ rest)) =
      byte '"' :: (taken ++ byte ':' :: (gap ++ (bytes ++ rest))) := by
    rw [memberBytes, hBytes, List.cons_append, List.cons_append, List.append_assoc,
      List.cons_append, List.append_assoc, hLine.skipBlank_cons (by decide)]
  exact ⟨hQuote, readText_eq_ok_iff.mpr ⟨taken, hTaken, rfl⟩, skipBlank_of_not_blank (by decide) _⟩

def rowBytes (line : List UInt8) (entries : List (List UInt8)) : List UInt8 :=
  entries.flatMap fun entry => byte ',' :: (line ++ entry)

theorem rowBytes_cons (entry : List UInt8) (entries : List (List UInt8)) (rest : List UInt8) :
    rowBytes line (entry :: entries) ++ rest =
      byte ',' :: (line ++ (entry ++ (rowBytes line entries ++ rest))) := by
  simp only [rowBytes, List.flatMap_cons, List.cons_append, List.append_assoc]

/-- What follows an entry does not go on with it. -/
theorem Ends.row {closing : Char} (hClosing : closing = ']' ∨ closing = '\x7d')
    (hLine : AllBlank line') (entries : List (List UInt8)) (rest : List UInt8) :
    Ends (rowBytes line entries ++ (line' ++ byte closing :: rest)) := by
  have hMark {c : Char} (hc : c = ',' ∨ c = ']' ∨ c = '\x7d') (rest : List UInt8) :
      Ends (byte c :: rest) := by
    rcases hc with rfl | rfl | rfl <;>
      exact .cons (by decide) (by decide) (by decide) (by decide) rest
  cases entries with
  | nil =>
    rw [rowBytes, List.flatMap_nil, List.nil_append]
    exact (hMark (.inr hClosing) rest).blank_append hLine
  | cons entry entries => exact hMark (.inl rfl) _

def groupBytes (opening closing : Char) (line line' first : List UInt8)
    (others : List (List UInt8)) : List UInt8 :=
  byte opening :: (line ++ (first ++ (rowBytes line others ++ (line' ++ [byte closing]))))

theorem groupBytes_append (opening closing : Char) (first : List UInt8)
    (others : List (List UInt8)) (rest : List UInt8) :
    groupBytes opening closing line line' first others ++ rest = byte opening ::
      (line ++ (first ++ (rowBytes line others ++ (line' ++ byte closing :: rest)))) := by
  simp only [groupBytes, List.cons_append, List.append_assoc, List.nil_append]

section

variable (hLine : AllBlank line) (hLine' : AllBlank line') {text : List UInt8}
  {frames : List Frame} (hNone : ∀ f ∈ frames, f.isEmbedded = false)
  {spell : Value → List UInt8}

include hLine hLine' hNone

theorem reads_items {v : Value} {items before : List Value}
    (hItems : ∀ item ∈ items, Spells (spell item) item) :
    ReflTransGen Within
      ⟨text, .array before :: frames, .after v,
        rowBytes line (items.map spell) ++ (line' ++ byte ']' :: rest)⟩
      ⟨text, frames, .after (.array (before.reverse ++ v :: items)), rest⟩ := by
  induction items generalizing v before with
  | nil =>
    have hStep := Within.closeArray (s := ⟨text, .array before :: frames, .after v,
      line' ++ byte ']' :: rest⟩) rfl rfl (hLine'.skipBlank_cons (by decide) rest)
    rw [List.reverse_cons] at hStep
    exact .single hStep
  | cons item items ih =>
    obtain ⟨hItem, hItems⟩ := List.forall_mem_cons.mp hItems
    obtain ⟨b, tail, hBytes, hb, hOpen⟩ := hItem.exists_cons _
    rw [List.map_cons, rowBytes_cons, hBytes]
    refine .head (.nextItem rfl rfl (skipBlank_of_not_blank (by decide) _)
      (hLine.skipBlank_cons hb tail) hOpen) ?_
    refine .trans (hItem.reads text _ _ _ (List.forall_mem_cons.mpr ⟨rfl, hNone⟩)
      ((skipBlank_of_not_blank hb tail).trans hBytes.symm) (.row (.inl rfl) hLine' _ _)) ?_
    have hBefore :
        before.reverse ++ v :: item :: items = (v :: before).reverse ++ item :: items := by
      rw [List.reverse_cons, List.append_assoc, List.singleton_append]
    rw [hBefore]
    exact ih hItems

theorem reads_members {gap : List UInt8} (hGap : AllBlank gap) {v : Value}
    {members fields : List (String × Value)} {key : String}
    (hMembers : ∀ m ∈ members, Spells (spell m.2) m.2) :
    ReflTransGen Within
      ⟨text, .object fields key :: frames, .after v,
        rowBytes line (members.map fun m => memberBytes gap m.1 (spell m.2)) ++
          (line' ++ byte '\x7d' :: rest)⟩
      ⟨text, frames, .after (.object (members.foldl (fun fields m => assign m.1 m.2 fields)
        (assign key v fields))), rest⟩ := by
  induction members generalizing v fields key with
  | nil => exact .single (.closeObject rfl rfl (hLine'.skipBlank_cons (by decide) rest))
  | cons m members ih =>
    obtain ⟨hMember, hMembers⟩ := List.forall_mem_cons.mp hMembers
    rw [List.map_cons, rowBytes_cons]
    refine .head (.nextMember rfl rfl (skipBlank_of_not_blank (by decide) _)
      (key_of_memberBytes hLine gap m.1 (spell m.2) _)) ?_
    refine .trans (hMember.reads text _ _ _ (List.forall_mem_cons.mpr ⟨rfl, hNone⟩)
      (hMember.skipBlank_eq hGap _) ?_) (ih hMembers)
    exact .row (.inr rfl) hLine' _ _

end

theorem isFull_of_none {s : State} (h : ∀ f ∈ s.frames, f.isEmbedded = false) :
    s.isFull = false := by
  have hAny : s.frames.any Frame.isEmbedded = false := by simpa using h
  rw [State.isFull, hAny, Bool.false_and]

theorem Spells.array (hLine : AllBlank line) (hLine' : AllBlank line')
    {spell : Value → List UInt8} {item : Value} {items : List Value}
    (hItems : ∀ i ∈ item :: items, Spells (spell i) i) :
    Spells (groupBytes '[' ']' line line' (spell item) (items.map spell))
      (.array (item :: items)) := by
  obtain ⟨hItem, hItems⟩ := List.forall_mem_cons.mp hItems
  refine ⟨⟨_, _, rfl, by decide, by decide⟩, ?_⟩
  intro text frames ahead rest hNone hAhead _
  obtain ⟨b, tail, hBytes, hb, hOpen⟩ := hItem.exists_cons _
  rw [groupBytes_append, hBytes] at hAhead
  refine .head
    (.openArray rfl hAhead (isFull_of_none hNone) (hLine.skipBlank_cons hb tail) hOpen) ?_
  refine .trans (hItem.reads text _ _ _ (List.forall_mem_cons.mpr ⟨rfl, hNone⟩)
    ((skipBlank_of_not_blank hb tail).trans hBytes.symm) (.row (.inl rfl) hLine' _ _)) ?_
  exact reads_items hLine hLine' hNone hItems

theorem Spells.object (hLine : AllBlank line) (hLine' : AllBlank line') {gap : List UInt8}
    (hGap : AllBlank gap) {spell : Value → List UInt8} {m : String × Value}
    {members : List (String × Value)} (hKeys : ((m :: members).map (·.1)).Nodup)
    (hLead : m.1 ≠ embeddedKey) (hMembers : ∀ f ∈ m :: members, Spells (spell f.2) f.2) :
    Spells (groupBytes '\x7b' '\x7d' line line' (memberBytes gap m.1 (spell m.2))
      (members.map fun f => memberBytes gap f.1 (spell f.2))) (.object (m :: members)) := by
  obtain ⟨hMember, hMembers⟩ := List.forall_mem_cons.mp hMembers
  refine ⟨⟨_, _, rfl, by decide, by decide⟩, ?_⟩
  intro text frames ahead rest hNone hAhead _
  rw [groupBytes_append] at hAhead
  refine .head (.openObject rfl hAhead (isFull_of_none hNone)
    (key_of_memberBytes hLine gap m.1 (spell m.2) _) hLead) ?_
  refine .trans (hMember.reads text _ _ _ (List.forall_mem_cons.mpr ⟨rfl, hNone⟩)
    (hMember.skipBlank_eq hGap _) ?_) ?_
  · exact .row (.inr rfl) hLine' _ _
  · have hAll : members.foldl (fun fields m => assign m.1 m.2 fields) (assign m.1 m.2 []) =
        m :: members := collect_of_nodup hKeys
    rw [← hAll]
    exact reads_members hLine hLine' hNone hGap hMembers

end SyntaxDrawing.Json
