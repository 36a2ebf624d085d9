import SyntaxDrawing.Proofs.Json.ReadBack

/-!
# Written values

What is written for a value is the same bytes wherever it stands. They spell the value if its keys
differ, its numbers are short integers, and none of its objects stands for an embedded document, and
the depth pass counts the levels of the value in them.
-/

namespace SyntaxDrawing.Json

open Relation

open Text.Utf8 (encode encode_append encode_eq_flatMap)

theorem AllBlank.of_isBlank {text : String} (h : IsBlank text) : AllBlank (encode text) := by
  have hAscii : ∀ c ∈ text.toList, c.toNat < 128 ∧ isBlankByte (byte c) = true := by
    intro c hc
    have hBlank := h c hc
    simp only [isBlankChar, Bool.or_eq_true, beq_iff_eq] at hBlank
    rcases hBlank with ((rfl | rfl) | rfl) | rfl <;> decide
  intro b hb
  rw [encode_eq_flatMap, flatMap_utf8EncodeChar_eq fun c hc => (hAscii c hc).1] at hb
  obtain ⟨c, hc, rfl⟩ := List.mem_map.mp hb
  exact (hAscii c hc).2

/-- The bytes that are written for a value that begins at a depth. -/
def Value.spelling (spacing : Spacing) (depth : Nat) (v : Value) : List UInt8 :=
  encode (v.writeOnto spacing depth "")

def WritesBehind (spacing : Spacing) (v : Value) : Prop :=
  ∀ depth text, encode (v.writeOnto spacing depth text) = encode text ++ v.spelling spacing depth

section

variable {spacing : Spacing} {gap : String}

theorem encode_writeItemsOnto {items : List Value} (h : ∀ item ∈ items, WritesBehind spacing item)
    (depth : Nat) (text : String) :
    encode (writeItemsOnto spacing depth text items) = encode text ++
      rowBytes (encode (spacing.lineAt depth)) (items.map (Value.spelling spacing depth)) := by
  induction items generalizing text with
  | nil => exact (List.append_nil _).symm
  | cons item items ih =>
    obtain ⟨hItem, hItems⟩ := List.forall_mem_cons.mp h
    rw [writeItemsOnto, ih hItems, hItem, encode_append, encode_append, List.map_cons, rowBytes,
      rowBytes, List.flatMap_cons]
    simp only [List.append_assoc, List.cons_append]
    rfl

/-- The colon of a spacing and the blanks behind it. -/
theorem encode_colon (hColon : spacing.colon = ":" ++ gap) :
    encode spacing.colon = byte ':' :: encode gap := by
  rw [hColon, encode_append]
  rfl

theorem encode_writeFieldsOnto (hColon : spacing.colon = ":" ++ gap)
    {fields : List (String × Value)} (h : ∀ m ∈ fields, WritesBehind spacing m.2) (depth : Nat)
    (text : String) :
    encode (writeFieldsOnto spacing depth text fields) = encode text ++
      rowBytes (encode (spacing.lineAt depth))
        (fields.map fun m => memberBytes (encode gap) m.1 (m.2.spelling spacing depth)) := by
  induction fields generalizing text with
  | nil => exact (List.append_nil _).symm
  | cons m fields ih =>
    obtain ⟨hMember, hFields⟩ := List.forall_mem_cons.mp h
    rw [writeFieldsOnto, ih hFields, hMember, encode_append, encode_append, encode_append,
      encode_append, encode_colon hColon, List.map_cons, rowBytes, rowBytes, List.flatMap_cons,
      memberBytes]
    simp only [List.append_assoc, List.cons_append]
    rfl

theorem encode_writeOnto_array {item : Value} {items : List Value}
    (h : ∀ i ∈ item :: items, WritesBehind spacing i) (depth : Nat) (text : String) :
    encode ((Value.array (item :: items)).writeOnto spacing depth text) = encode text ++
      groupBytes '[' ']' (encode (spacing.lineAt (depth + 1))) (encode (spacing.lineAt depth))
        (item.spelling spacing (depth + 1)) (items.map (Value.spelling spacing (depth + 1))) := by
  obtain ⟨hItem, hItems⟩ := List.forall_mem_cons.mp h
  rw [Value.writeOnto, encode_append, encode_append, encode_writeItemsOnto hItems, hItem,
    encode_append, encode_append, groupBytes]
  simp only [List.append_assoc]
  rfl

theorem encode_writeOnto_object (hColon : spacing.colon = ":" ++ gap) {m : String × Value}
    {fields : List (String × Value)} (h : ∀ f ∈ m :: fields, WritesBehind spacing f.2)
    (depth : Nat) (text : String) :
    encode ((Value.object (m :: fields)).writeOnto spacing depth text) = encode text ++
      groupBytes '\x7b' '\x7d' (encode (spacing.lineAt (depth + 1)))
        (encode (spacing.lineAt depth))
        (memberBytes (encode gap) m.1 (m.2.spelling spacing (depth + 1)))
        (fields.map fun f => memberBytes (encode gap) f.1 (f.2.spelling spacing (depth + 1))) := by
  obtain ⟨hMember, hFields⟩ := List.forall_mem_cons.mp h
  rw [Value.writeOnto, encode_append, encode_append, encode_writeFieldsOnto hColon hFields,
    hMember, encode_append, encode_append, encode_append, encode_append, encode_colon hColon,
    groupBytes, memberBytes]
  simp only [List.append_assoc, List.cons_append]
  rfl

theorem writesBehind (hColon : spacing.colon = ":" ++ gap) (v : Value) :
    WritesBehind spacing v := by
  have hWord {v : Value} (word : String)
      (h : ∀ depth text, v.writeOnto spacing depth text = text ++ word) :
      WritesBehind spacing v := by
    intro depth text
    rw [Value.spelling, h, h, encode_append, encode_append]
    rfl
  induction v using Value.induction with
  | null => exact hWord _ fun _ _ => rfl
  | bool b => exact hWord _ fun _ _ => rfl
  | number n => exact hWord _ fun _ _ => rfl
  | string s => exact hWord _ fun _ _ => rfl
  | array items ih =>
    cases items with
    | nil => exact hWord _ fun _ _ => rfl
    | cons item items =>
      intro depth text
      rw [Value.spelling, encode_writeOnto_array ih, encode_writeOnto_array ih]
      rfl
  | object fields ih =>
    cases fields with
    | nil => exact hWord _ fun _ _ => rfl
    | cons m fields =>
      intro depth text
      rw [Value.spelling, encode_writeOnto_object hColon ih, encode_writeOnto_object hColon ih]
      rfl

theorem Value.spelling_array (hColon : spacing.colon = ":" ++ gap) (item : Value)
    (items : List Value) (depth : Nat) :
    (Value.array (item :: items)).spelling spacing depth =
      groupBytes '[' ']' (encode (spacing.lineAt (depth + 1))) (encode (spacing.lineAt depth))
        (item.spelling spacing (depth + 1)) (items.map (Value.spelling spacing (depth + 1))) :=
  encode_writeOnto_array (fun i _ => writesBehind hColon i) depth ""

theorem Value.spelling_object (hColon : spacing.colon = ":" ++ gap) (m : String × Value)
    (fields : List (String × Value)) (depth : Nat) :
    (Value.object (m :: fields)).spelling spacing depth =
      groupBytes '\x7b' '\x7d' (encode (spacing.lineAt (depth + 1)))
        (encode (spacing.lineAt depth))
        (memberBytes (encode gap) m.1 (m.2.spelling spacing (depth + 1)))
        (fields.map fun f => memberBytes (encode gap) f.1 (f.2.spelling spacing (depth + 1))) :=
  encode_writeOnto_object hColon (fun f _ => writesBehind hColon f.2) depth ""

end

theorem spells_emptyArray : Spells [byte '[', byte ']'] (.array []) := by
  refine ⟨⟨_, _, rfl, by decide, by decide⟩, ?_⟩
  intro text frames ahead rest hNone hAhead _
  exact .single
    (.emptyArray rfl hAhead (isFull_of_none hNone) (skipBlank_of_not_blank (by decide) _))

theorem spells_emptyObject : Spells [byte '\x7b', byte '\x7d'] (.object []) := by
  refine ⟨⟨_, _, rfl, by decide, by decide⟩, ?_⟩
  intro text frames ahead rest hNone hAhead _
  exact .single
    (.emptyObject rfl hAhead (isFull_of_none hNone) (skipBlank_of_not_blank (by decide) _))

theorem spells_spelling {spacing : Spacing} (h : spacing.IsBlank) {v : Value}
    (hKeys : v.HasDistinctKeys) (hIntegers : v.HasShortIntegers) (hSelf : v.StandsForItself)
    (depth : Nat) : Spells (v.spelling spacing depth) v := by
  obtain ⟨gap, hGap, hColon⟩ := h.colon
  have hLine (depth : Nat) : AllBlank (encode (spacing.lineAt depth)) := .of_isBlank (h.line depth)
  induction v using Value.induction generalizing depth with
  | null => exact spellsScalar_null.spells
  | bool b => exact (spellsScalar_bool b).spells
  | number n =>
    obtain ⟨i, rfl, hShort⟩ := hIntegers n (.self _)
    exact (spellsScalar_integerText hShort).spells
  | string s => exact (spellsScalar_quote s).spells
  | array items ih =>
    have hItems : ∀ i ∈ items, ∀ depth, Spells (i.spelling spacing depth) i := by
      intro i hi depth
      have hPart : (Value.array items).Contains i := .item hi (.self i)
      exact ih i hi (hKeys.part hPart) (hIntegers.part hPart) (hSelf.part hPart) depth
    cases items with
    | nil => exact spells_emptyArray
    | cons item items =>
      rw [Value.spelling_array hColon]
      exact .array (hLine _) (hLine _) fun i hi => hItems i hi _
  | object fields ih =>
    have hMembers : ∀ m ∈ fields, ∀ depth, Spells (m.2.spelling spacing depth) m.2 := by
      intro m hm depth
      have hPart : (Value.object fields).Contains m.2 := .member hm (.self m.2)
      exact ih m hm (hKeys.part hPart) (hIntegers.part hPart) (hSelf.part hPart) depth
    cases fields with
    | nil => exact spells_emptyObject
    | cons m fields =>
      rw [Value.spelling_object hColon]
      exact .object (hLine _) (hLine _) (.of_isBlank hGap) (hKeys _ (.self _))
        (fun hLead => hSelf _ (.self _) (congrArg some hLead)) fun f hf => hMembers f hf _

theorem run_eq_of_within {s s' : State} (h : ReflTransGen Within s s') : s.run = s'.run := by
  induction h with
  | refl => rfl
  | tail _ hStep ih => exact ih.trans (Moves.within hStep).run_eq

theorem Spells.read_append {bytes blanks : List UInt8} {v : Value} (h : Spells bytes v)
    (hBlank : AllBlank blanks) : read (bytes ++ blanks) = .ok v := by
  have hNone : AllBlank [] := nofun
  have hAhead : skipBlank (bytes ++ blanks) = bytes ++ blanks := h.skipBlank_eq hNone blanks
  have hEnds : Ends blanks := List.append_nil blanks ▸ Ends.nil.blank_append hBlank
  have hEnd : skipBlank blanks = [] := skipBlank_eq_nil_iff.mpr hBlank
  have hRun := h.reads (bytes ++ blanks) [] _ blanks nofun hAhead hEnds
  exact (run_eq_of_within hRun).trans (Moves.finish rfl rfl hEnd).run_eq_ok

/-- The depth pass comes back from the bytes to where it was, having been so many levels deeper. -/
def Rises (bytes : List UInt8) (levels : Nat) : Prop :=
  ∀ c m, c ≤ m →
    bytes.foldl Depth.pass ⟨.outside, c, m⟩ = ⟨.outside, c, max m (c + levels)⟩

namespace Rises

theorem flat {bytes : List UInt8}
    (h : ∀ c m, bytes.foldl Depth.pass ⟨.outside, c, m⟩ = ⟨.outside, c, m⟩) : Rises bytes 0 := by
  intro c m hDeepest
  rw [h, Nat.add_zero, Nat.max_eq_left hDeepest]

theorem of_scalar {bytes : List UInt8} {v : Value} (h : SpellsScalar bytes v) : Rises bytes 0 := by
  apply flat
  intro c m
  have hPass := (h [] .nil).foldl_pass (c := c) (m := m)
  rwa [List.append_nil] at hPass

theorem of_allBlank {bytes : List UInt8} (h : AllBlank bytes) : Rises bytes 0 :=
  flat fun _ _ => foldl_pass_skipBlank (skipBlank_eq_nil_iff.mpr h)

theorem append {bytes bytes' : List UInt8} {n n' : Nat} (h : Rises bytes n)
    (h' : Rises bytes' n') : Rises (bytes ++ bytes') (max n n') := by
  intro c m hDeepest
  rw [List.foldl_append, h c m hDeepest, h' c _ (by omega)]
  congr 1
  omega

theorem plain_cons {b : UInt8} {bytes : List UInt8} {n : Nat} (hb : isPlain b = true)
    (h : Rises bytes n) : Rises (b :: bytes) n := by
  intro c m hDeepest
  rw [foldl_pass_plain hb, h c m hDeepest]

theorem blank_append {line bytes : List UInt8} {n : Nat} (hLine : AllBlank line)
    (h : Rises bytes n) : Rises (line ++ bytes) n :=
  Nat.zero_max n ▸ (of_allBlank hLine).append h

theorem member {gap bytes : List UInt8} {n : Nat} (hGap : AllBlank gap) (key : String)
    (h : Rises bytes n) : Rises (memberBytes gap key bytes) n :=
  Nat.zero_max n ▸
    (of_scalar (spellsScalar_quote key)).append (.plain_cons (by decide) (.blank_append hGap h))

theorem row {α : Type} {line : List UInt8} (hLine : AllBlank line) {spell : α → List UInt8}
    {levels : α → Nat} {entries : List α} (h : ∀ e ∈ entries, Rises (spell e) (levels e)) :
    Rises (rowBytes line (entries.map spell)) (entries.foldr (fun e n => max (levels e) n) 0) := by
  induction entries with
  | nil => exact flat fun _ _ => rfl
  | cons e entries ih =>
    obtain ⟨hEntry, hEntries⟩ := List.forall_mem_cons.mp h
    exact (plain_cons (by decide) (.blank_append hLine hEntry)).append (ih hEntries)

theorem enclosed {opening closing : Char} (hOpen : opening = '[' ∨ opening = '\x7b')
    (hClose : closing = ']' ∨ closing = '\x7d') {bytes : List UInt8} {n : Nat}
    (h : Rises bytes n) : Rises (byte opening :: (bytes ++ [byte closing])) (n + 1) := by
  intro c m hDeepest
  have hIn : Depth.pass ⟨.outside, c, m⟩ (byte opening) = ⟨.outside, c + 1, max m (c + 1)⟩ := by
    rcases hOpen with rfl | rfl <;> rfl
  have hOut (m : Nat) : Depth.pass ⟨.outside, c + 1, m⟩ (byte closing) = ⟨.outside, c, m⟩ := by
    rcases hClose with rfl | rfl <;> rfl
  rw [List.foldl_cons, hIn, List.foldl_append, h (c + 1) _ (by omega), List.foldl_cons, hOut,
    List.foldl_nil]
  congr 1
  omega

theorem group {opening closing : Char} (hOpen : opening = '[' ∨ opening = '\x7b')
    (hClose : closing = ']' ∨ closing = '\x7d') {line line' first : List UInt8}
    {others : List (List UInt8)} {n n' : Nat} (hLine : AllBlank line) (hLine' : AllBlank line')
    (hFirst : Rises first n) (hOthers : Rises (rowBytes line others) n') :
    Rises (groupBytes opening closing line line' first others) (max n n' + 1) := by
  have hInner : Rises (line ++ (first ++ (rowBytes line others ++ line'))) (max n n') :=
    .blank_append hLine (hFirst.append (Nat.max_zero n' ▸ hOthers.append (.of_allBlank hLine')))
  have hBytes : groupBytes opening closing line line' first others = byte opening ::
      (line ++ (first ++ (rowBytes line others ++ line')) ++ [byte closing]) := by
    simp only [groupBytes, List.append_assoc]
  exact hBytes ▸ hInner.enclosed hOpen hClose

end Rises

theorem nestingOfItems_eq_foldr (items : List Value) :
    nestingOfItems items = items.foldr (fun item n => max item.nesting n) 0 := by
  induction items with
  | nil => rfl
  | cons item items ih => rw [nestingOfItems, ih, List.foldr_cons]

theorem nestingOfFields_eq_foldr (fields : List (String × Value)) :
    nestingOfFields fields = fields.foldr (fun m n => max m.2.nesting n) 0 := by
  induction fields with
  | nil => rfl
  | cons m fields ih => rw [nestingOfFields, ih, List.foldr_cons]

theorem rises_spelling {spacing : Spacing} (h : spacing.IsBlank) {v : Value}
    (hIntegers : v.HasShortIntegers) (depth : Nat) :
    Rises (v.spelling spacing depth) v.nesting := by
  obtain ⟨gap, hGap, hColon⟩ := h.colon
  have hLine (depth : Nat) : AllBlank (encode (spacing.lineAt depth)) := .of_isBlank (h.line depth)
  have hNothing : Rises [] 0 := .flat fun _ _ => rfl
  induction v using Value.induction generalizing depth with
  | null => exact .of_scalar spellsScalar_null
  | bool b => exact .of_scalar (spellsScalar_bool b)
  | number n =>
    obtain ⟨i, rfl, hShort⟩ := hIntegers n (.self _)
    exact .of_scalar (spellsScalar_integerText hShort)
  | string s => exact .of_scalar (spellsScalar_quote s)
  | array items ih =>
    have hItems : ∀ i ∈ items, ∀ depth, Rises (i.spelling spacing depth) i.nesting :=
      fun i hi => ih i hi (hIntegers.part (.item hi (.self i)))
    cases items with
    | nil => exact hNothing.enclosed (.inl rfl) (.inl rfl)
    | cons item items =>
      obtain ⟨hItem, hItems⟩ := List.forall_mem_cons.mp hItems
      rw [Value.spelling_array hColon, Value.nesting, nestingOfItems, nestingOfItems_eq_foldr]
      exact .group (.inl rfl) (.inl rfl) (hLine _) (hLine _) (hItem _)
        (.row (hLine _) fun i hi => hItems i hi _)
  | object fields ih =>
    have hMembers : ∀ m ∈ fields, ∀ depth, Rises (m.2.spelling spacing depth) m.2.nesting :=
      fun m hm => ih m hm (hIntegers.part (.member hm (.self m.2)))
    cases fields with
    | nil => exact hNothing.enclosed (.inr rfl) (.inr rfl)
    | cons m fields =>
      obtain ⟨hMember, hMembers⟩ := List.forall_mem_cons.mp hMembers
      rw [Value.spelling_object hColon, Value.nesting, nestingOfFields, nestingOfFields_eq_foldr]
      exact .group (.inr rfl) (.inr rfl) (hLine _) (hLine _)
        (.member (.of_isBlank hGap) _ (hMember _))
        (.row (hLine _) fun f hf => .member (.of_isBlank hGap) _ (hMembers f hf _))

theorem Rises.nestingDepth_append {bytes blanks : List UInt8} {n : Nat} (h : Rises bytes n)
    (hBlank : AllBlank blanks) : nestingDepth (bytes ++ blanks) = n := by
  have hAll := h.append (.of_allBlank hBlank) 0 0 (Nat.le_refl 0)
  rw [nestingDepth, Depth.zero, hAll]
  simp only
  omega

end SyntaxDrawing.Json
