import SyntaxDrawing.Proofs.Json.WellFormed
import SyntaxDrawing.Tree.Json

/-!
# Trees keep all of a document

A document is arranged when the kind of each of its objects stands first and the span second. A tree
written back is the arranged document, and it is read as the same tree again. So a tree tells two
documents apart exactly when they differ in more than where kinds and spans stand.
-/

namespace SyntaxDrawing

open Json (Value)

-- Powers mean those of the core library, as in the definitions.
attribute [local instance (high)] instPowNat

namespace Json

def Value.isText : Value → Bool
  | .string _ => true
  | _ => false

def Value.isSpan : Value → Bool
  | .array [.number (.integer a), .number (.integer b), .number (.integer c),
      .number (.integer d)] =>
    [a, b, c, d].all fun i => 0 ≤ i ∧ i < 2 ^ (64 : Nat)
  | _ => false

/-- An object with a text for its `type` has that in front, and behind it a `location` that is a
span. -/
def arrangedMembers (fields : List (String × Value)) : List (String × Value) :=
  if (lookup? "type" fields).any Value.isText then
    toFront "type"
      (if (lookup? "location" fields).any Value.isSpan then toFront "location" fields else fields)
  else fields

mutual
def Value.arranged : Value → Value
  | .array items => .array (arrangedItems items)
  | .object fields => .object (arrangedMembers (arrangedFields fields))
  | v => v

def arrangedItems : List Value → List Value
  | [] => []
  | item :: rest => item.arranged :: arrangedItems rest

def arrangedFields : List (String × Value) → List (String × Value)
  | [] => []
  | (key, value) :: rest => (key, value.arranged) :: arrangedFields rest
end

theorem arrangedItems_eq_map (items : List Value) :
    arrangedItems items = items.map Value.arranged := by
  induction items with
  | nil => rfl
  | cons item rest ih => rw [arrangedItems, ih, List.map_cons]

theorem arrangedFields_eq_map (fields : List (String × Value)) :
    arrangedFields fields = fields.map fun m => (m.1, m.2.arranged) := by
  induction fields with
  | nil => rfl
  | cons member rest ih => rw [arrangedFields, ih, List.map_cons]

theorem arrangedMembers_perm (fields : List (String × Value)) :
    (arrangedMembers fields).Perm fields := by
  rw [arrangedMembers]
  split
  · split
    · exact (toFront_perm _ _).trans (toFront_perm _ _)
    · exact toFront_perm _ _
  · exact List.Perm.refl fields

end Json

theorem coordinate?_integer (i : Int) :
    coordinate? (.number (.integer i)) =
      if 0 ≤ i ∧ i < 2 ^ (64 : Nat) then some i.toNat else none :=
  rfl

theorem coordinate?_eq_some_iff {v : Value} {n : Nat} :
    coordinate? v = some n ↔ v = .number (.integer n) ∧ (n : Int) < 2 ^ (64 : Nat) := by
  constructor
  · intro h
    match v, h with
    | .number (.integer i), h =>
      rw [coordinate?_integer] at h
      split at h
      · next hRange =>
        obtain rfl := Option.some.inj h
        rw [Int.toNat_of_nonneg hRange.1]
        exact ⟨rfl, hRange.2⟩
      · cases h
  · rintro ⟨rfl, hn⟩
    rw [coordinate?_integer, if_pos ⟨Int.natCast_nonneg n, hn⟩, Int.toNat_natCast]

theorem Span.ofJson?_eq_some_iff {v : Value} {s : Span} :
    Span.ofJson? v = some s ↔ v = s.toJson ∧ ∀ n ∈ s.numbers, (n : Int) < 2 ^ (64 : Nat) := by
  constructor
  · intro h
    match v, h with
    | .array [a, b, c, d], h =>
      rw [Span.ofJson?] at h
      split at h
      · next ha hb hc hd =>
        obtain ⟨rfl, hA⟩ := coordinate?_eq_some_iff.mp ha
        obtain ⟨rfl, hB⟩ := coordinate?_eq_some_iff.mp hb
        obtain ⟨rfl, hC⟩ := coordinate?_eq_some_iff.mp hc
        obtain ⟨rfl, hD⟩ := coordinate?_eq_some_iff.mp hd
        obtain rfl := Option.some.inj h
        refine ⟨rfl, ?_⟩
        simp only [Span.numbers, List.forall_mem_cons]
        exact ⟨hA, hB, hC, hD, nofun⟩
      · cases h
  · rintro ⟨rfl, hBound⟩
    have hNumber : ∀ n ∈ s.numbers, coordinate? (.number (.integer n)) = some n :=
      fun n hn => coordinate?_eq_some_iff.mpr ⟨rfl, hBound n hn⟩
    simp only [Span.numbers, List.forall_mem_cons] at hNumber
    obtain ⟨ha, hb, hc, hd, -⟩ := hNumber
    rw [Span.toJson, Span.numbers, List.map_cons, List.map_cons, List.map_cons, List.map_cons,
      List.map_nil, Span.ofJson?, ha, hb, hc, hd]

theorem isSpan_array (a b c d : Int) :
    (Value.array [.number (.integer a), .number (.integer b), .number (.integer c),
      .number (.integer d)]).isSpan ↔ ∀ i ∈ [a, b, c, d], 0 ≤ i ∧ i < 2 ^ (64 : Nat) := by
  rw [Json.Value.isSpan, List.all_eq_true]
  simp only [decide_eq_true_eq]

theorem isSpan_iff {v : Value} : v.isSpan ↔ (Span.ofJson? v).isSome := by
  rw [Option.isSome_iff_exists]
  constructor
  · intro h
    match v, h with
    | .array [.number (.integer a), .number (.integer b), .number (.integer c),
        .number (.integer d)], h =>
      rw [isSpan_array] at h
      simp only [List.forall_mem_cons] at h
      obtain ⟨ha, hb, hc, hd, -⟩ := h
      rw [Span.ofJson?, coordinate?_integer, coordinate?_integer, coordinate?_integer,
        coordinate?_integer, if_pos ha, if_pos hb, if_pos hc, if_pos hd]
      exact ⟨_, rfl⟩
  · rintro ⟨s, hs⟩
    obtain ⟨rfl, hBound⟩ := Span.ofJson?_eq_some_iff.mp hs
    rw [Span.toJson, Span.numbers, List.map_cons, List.map_cons, List.map_cons, List.map_cons,
      List.map_nil, isSpan_array]
    intro i hi
    have hi : i ∈ s.numbers.map fun (n : Nat) => (n : Int) := hi
    obtain ⟨n, hn, rfl⟩ := List.mem_map.mp hi
    exact ⟨Int.natCast_nonneg n, hBound n hn⟩

theorem coordinate?_arranged (v : Value) : coordinate? v.arranged = coordinate? v := by
  cases v <;> rfl

theorem Span.ofJson?_arranged (v : Value) : Span.ofJson? v.arranged = Span.ofJson? v := by
  cases v with
  | array items =>
    rw [Json.Value.arranged, Json.arrangedItems_eq_map]
    match items with
    | [a, b, c, d] => simp only [List.map_cons, List.map_nil, Span.ofJson?, coordinate?_arranged]
    | [] | [_] | [_, _] | [_, _, _] | _ :: _ :: _ :: _ :: _ :: _ => rfl
  | _ => rfl

section

variable {fields fields' : List (String × Value)} {kind : String}

theorem kindOf?_eq_some_iff :
    kindOf? fields = some kind ↔ Json.lookup? kindKey fields = some (.string kind) := by
  rw [kindOf?]
  constructor
  · intro h
    split at h
    · next hLookup => rw [hLookup, ← Option.some.inj h]
    · cases h
  · intro h
    rw [h]

theorem any_isText_iff :
    (Json.lookup? "type" fields).any Value.isText ↔ (kindOf? fields).isSome := by
  rw [kindOf?, kindKey]
  cases Json.lookup? "type" fields with
  | none => exact Iff.rfl
  | some v => cases v <;> exact Iff.rfl

theorem any_isSpan_iff :
    (Json.lookup? "location" fields).any Value.isSpan ↔ (spanOf? fields).isSome := by
  rw [spanOf?, spanKey]
  cases Json.lookup? "location" fields with
  | none => exact Iff.rfl
  | some v => exact isSpan_iff

theorem kindOf?_perm (hKeys : (fields.map (·.1)).Nodup) (hPerm : fields'.Perm fields) :
    kindOf? fields' = kindOf? fields := by
  rw [kindOf?, Json.lookup?_perm hKeys hPerm, kindOf?]

theorem spanOf?_perm (hKeys : (fields.map (·.1)).Nodup) (hPerm : fields'.Perm fields) :
    spanOf? fields' = spanOf? fields := by
  rw [spanOf?, Json.lookup?_perm hKeys hPerm, spanOf?]

theorem kindOf?_arranged (fields : List (String × Value)) :
    kindOf? (Json.arrangedFields fields) = kindOf? fields := by
  rw [kindOf?, Json.arrangedFields_eq_map, Json.lookup?_map, kindOf?]
  cases Json.lookup? kindKey fields with
  | none => rfl
  | some v => cases v <;> rfl

theorem spanOf?_arranged (fields : List (String × Value)) :
    spanOf? (Json.arrangedFields fields) = spanOf? fields := by
  rw [spanOf?, Json.arrangedFields_eq_map, Json.lookup?_map, spanOf?]
  cases Json.lookup? spanKey fields with
  | none => rfl
  | some v => exact Span.ofJson?_arranged v

theorem keys_arrangedFields (fields : List (String × Value)) :
    (Json.arrangedFields fields).map (·.1) = fields.map (·.1) := by
  rw [Json.arrangedFields_eq_map, List.map_map]
  rfl

theorem nodup_keys_arranged (hKeys : (fields.map (·.1)).Nodup) :
    ((Json.arrangedMembers (Json.arrangedFields fields)).map (·.1)).Nodup := by
  rw [((Json.arrangedMembers_perm _).map _).nodup_iff, keys_arrangedFields]
  exact hKeys

theorem arrangedMembers_of_untyped (h : kindOf? fields = none) :
    Json.arrangedMembers fields = fields := by
  rw [Json.arrangedMembers, if_neg]
  rw [any_isText_iff, h]
  exact Bool.false_ne_true

/-- An arranged object is what the kind and the span stand for and then the fields. -/
theorem arrangedMembers_of_kind (hKeys : (fields.map (·.1)).Nodup)
    (h : kindOf? fields = some kind) :
    Json.arrangedMembers fields = liftedMembers kind (spanOf? fields) ++
      fields.filter fun m => isField (spanOf? fields).isSome m.1 := by
  have hKind := kindOf?_eq_some_iff.mp h
  rw [Json.arrangedMembers, if_pos (any_isText_iff.mpr (by rw [h]; rfl))]
  cases hSpan : spanOf? fields with
  | none =>
    rw [if_neg (by rw [any_isSpan_iff, hSpan]; exact Bool.false_ne_true)]
    refine (Json.toFront_of_lookup? hKeys hKind).trans (congrArg (List.cons _) ?_)
    apply List.filter_congr
    intro m _
    rw [isField, Option.isSome_none, Bool.false_and, Bool.not_false, Bool.and_true]
  | some s =>
    rw [if_pos (any_isSpan_iff.mpr (by rw [hSpan]; rfl))]
    obtain ⟨v, hLookup, hValue⟩ := Option.bind_eq_some_iff.mp hSpan
    have hFront := Json.toFront_of_lookup? hKeys hLookup
    have hPerm := Json.toFront_perm spanKey fields
    have hKeysFront : ((Json.toFront spanKey fields).map (·.1)).Nodup :=
      (hPerm.map _).nodup_iff.mpr hKeys
    have hKindFront := (Json.lookup?_perm hKeys hPerm).trans hKind
    refine (Json.toFront_of_lookup? hKeysFront hKindFront).trans (congrArg (List.cons _) ?_)
    rw [hFront, (Span.ofJson?_eq_some_iff.mp hValue).1,
      List.filter_cons_of_pos (by rfl), List.filter_filter]
    rfl

end

theorem filter_map_lifted {β : Type} (kind : String) (span : Option Span)
    (fields : List (String × Value)) (f : Value → β) :
    ((liftedMembers kind span ++ fields.filter fun m => isField span.isSome m.1).map
      fun m => (m.1, f m.2)).filter (fun m => isField span.isSome m.1) =
      (fields.map fun m => (m.1, f m.2)).filter fun m => isField span.isSome m.1 := by
  have hLifted : ((liftedMembers kind span).map fun m => (m.1, f m.2)).filter
      (fun m => isField span.isSome m.1) = [] := by
    cases span <;> rfl
  rw [List.map_append, List.filter_append, hLifted, List.nil_append, List.filter_map,
    List.filter_map, List.filter_filter]
  simp only [Function.comp_apply, Bool.and_self]
  rfl

namespace Tree

variable {fields : List (String × Value)} {kind : String}

theorem ofJson_object_untyped (h : kindOf? fields = none) :
    ofJson (.object fields) = mapping (fields.map fun m => (m.1, ofJson m.2)) := by
  rw [ofJson, h, ofFields_eq_map]

theorem ofJson_object_kind (h : kindOf? fields = some kind) :
    ofJson (.object fields) = node kind (spanOf? fields)
      ((fields.map fun m => (m.1, ofJson m.2)).filter fun m =>
        isField (spanOf? fields).isSome m.1) := by
  rw [ofJson, h, ofFields_eq_map]

theorem toJson_ofJson {d : Value} (h : d.WellFormed) : (ofJson d).toJson = d.arranged := by
  induction h with
  | null => rfl
  | bool b => rfl
  | number h => rfl
  | string s => rfl
  | @array items _ ih =>
    rw [ofJson, toJson, Json.Value.arranged, ofItems_eq_map, toItems_eq_map,
      Json.arrangedItems_eq_map, List.map_map]
    exact congrArg _ (List.map_congr_left ih)
  | @object fields hKeys _ ih =>
    have hFields : Json.arrangedFields fields = fields.map fun m => (m.1, (ofJson m.2).toJson) := by
      rw [Json.arrangedFields_eq_map]
      exact List.map_congr_left fun m hm => Prod.ext rfl (ih m hm).symm
    have hCollect := Json.collect_of_nodup (nodup_keys_arranged hKeys)
    rw [Json.Value.arranged, ← hCollect]
    cases hKind : kindOf? fields with
    | none =>
      rw [arrangedMembers_of_untyped ((kindOf?_arranged fields).trans hKind), hFields,
        ofJson_object_untyped hKind, toJson, toFields_eq_map, List.map_map]
      rfl
    | some kind =>
      rw [arrangedMembers_of_kind (by rwa [keys_arrangedFields])
        ((kindOf?_arranged fields).trans hKind), spanOf?_arranged, hFields,
        ofJson_object_kind hKind, toJson, toFields_eq_map, List.filter_map, List.filter_map,
        List.map_map]
      rfl

theorem arranged_wellFormed {d : Value} (h : d.WellFormed) : d.arranged.WellFormed := by
  induction h with
  | null => exact .null
  | bool b => exact .bool b
  | number h => exact .number h
  | string s => exact .string s
  | @array items _ ih =>
    rw [Json.Value.arranged, Json.arrangedItems_eq_map]
    exact .array (List.forall_mem_map.mpr ih)
  | @object fields hKeys _ ih =>
    rw [Json.Value.arranged]
    refine .object (nodup_keys_arranged hKeys) ?_
    intro m hm
    rw [(Json.arrangedMembers_perm _).mem_iff, Json.arrangedFields_eq_map] at hm
    obtain ⟨n, hn, rfl⟩ := List.mem_map.mp hm
    exact ih n hn

theorem ofJson_arranged {d : Value} (h : d.WellFormed) : ofJson d.arranged = ofJson d := by
  induction h with
  | null => rfl
  | bool b => rfl
  | number h => rfl
  | string s => rfl
  | @array items _ ih =>
    rw [Json.Value.arranged, Json.arrangedItems_eq_map, ofJson, ofItems_eq_map, ofJson,
      ofItems_eq_map, List.map_map]
    exact congrArg _ (List.map_congr_left ih)
  | @object fields hKeys _ ih =>
    have hFields : (Json.arrangedFields fields).map (fun m => (m.1, ofJson m.2)) =
        fields.map fun m => (m.1, ofJson m.2) := by
      rw [Json.arrangedFields_eq_map, List.map_map]
      exact List.map_congr_left fun m hm => Prod.ext rfl (ih m hm)
    have hKeysArranged : ((Json.arrangedFields fields).map (·.1)).Nodup := by
      rwa [keys_arrangedFields]
    have hPerm := Json.arrangedMembers_perm (Json.arrangedFields fields)
    have hKindArranged := (kindOf?_perm hKeysArranged hPerm).trans (kindOf?_arranged fields)
    have hSpanArranged := (spanOf?_perm hKeysArranged hPerm).trans (spanOf?_arranged fields)
    rw [Json.Value.arranged]
    cases hKind : kindOf? fields with
    | none =>
      rw [ofJson_object_untyped (hKindArranged.trans hKind), ofJson_object_untyped hKind,
        arrangedMembers_of_untyped ((kindOf?_arranged fields).trans hKind), hFields]
    | some kind =>
      rw [ofJson_object_kind (hKindArranged.trans hKind), ofJson_object_kind hKind, hSpanArranged,
        arrangedMembers_of_kind hKeysArranged ((kindOf?_arranged fields).trans hKind),
        spanOf?_arranged, filter_map_lifted, hFields]

theorem sameItems_self {items : List Tree} (h : ∀ t ∈ items, t.same t = true) :
    sameItems items items = true := by
  induction items with
  | nil => rfl
  | cons t rest ih =>
    rw [List.forall_mem_cons] at h
    rw [sameItems, h.1, ih h.2, Bool.and_true]

theorem sameFields_self {fields : List (String × Tree)} (h : ∀ m ∈ fields, m.2.same m.2 = true) :
    sameFields fields fields = true := by
  induction fields with
  | nil => rfl
  | cons member rest ih =>
    rw [List.forall_mem_cons] at h
    rw [sameFields, h.1, ih h.2, beq_self_eq_true, Bool.and_true, Bool.and_true]

theorem same_self {d : Value} (h : d.WellFormed) : (ofJson d).same (ofJson d) = true := by
  induction h with
  | null => rfl
  | bool b => exact beq_self_eq_true b
  | number h => exact Json.Number.same_self h
  | string s => exact beq_self_eq_true s
  | @array items _ ih =>
    rw [ofJson, ofItems_eq_map, same]
    exact sameItems_self (List.forall_mem_map.mpr ih)
  | @object fields _ _ ih =>
    have hSame : ∀ m ∈ fields.map fun m => (m.1, ofJson m.2), m.2.same m.2 = true :=
      List.forall_mem_map.mpr ih
    cases hKind : kindOf? fields with
    | none =>
      rw [ofJson_object_untyped hKind, same]
      exact sameFields_self hSame
    | some kind =>
      rw [ofJson_object_kind hKind, same, beq_self_eq_true, beq_self_eq_true, Bool.true_and,
        Bool.true_and]
      exact sameFields_self fun m hm => hSame m (List.mem_of_mem_filter hm)

/-- A tree written back is its document with kinds and spans in front, which is read as the same
tree. Documents make the same tree exactly when arranging makes them equal. -/
theorem toJson_ofJson_eq_arranged {d : Value} (h : d.WellFormed) :
    (ofJson d).toJson = d.arranged ∧ ofJson (ofJson d).toJson = ofJson d ∧
      (ofJson (ofJson d).toJson).same (ofJson d) = true ∧
      ∀ e : Value, e.WellFormed → (ofJson d = ofJson e ↔ d.arranged = e.arranged) ∧
        (d.arranged = e.arranged → (ofJson d).same (ofJson e) = true) := by
  have hBack : ofJson (ofJson d).toJson = ofJson d := by
    rw [toJson_ofJson h, ofJson_arranged h]
  refine ⟨toJson_ofJson h, hBack, by rw [hBack, same_self h], ?_⟩
  intro e he
  have hEq : ofJson d = ofJson e ↔ d.arranged = e.arranged := by
    constructor
    · intro hTree
      rw [← toJson_ofJson h, ← toJson_ofJson he, hTree]
    · intro hArranged
      rw [← ofJson_arranged h, ← ofJson_arranged he, hArranged]
  refine ⟨hEq, ?_⟩
  intro hArranged
  rw [← hEq.mpr hArranged, same_self h]

/-- A call with its span before its kind. Its argument is no node, for its `type` is a number, and
within that a `location` that is no span holds a node with its kind behind. -/
def scatteredCall : Value :=
  .object [("location", .array [.number (.integer 1), .number (.integer 0), .number (.integer 1),
      .number (.integer 9)]),
    ("argument", .object [("type", .number (.integer 7)),
      ("location", .array [.object [("value", .string "x"), ("type", .string "name")]])]),
    ("type", .string "call")]

def gatheredCall : Value :=
  .object [("type", .string "call"),
    ("location", .array [.number (.integer 1), .number (.integer 0), .number (.integer 1),
      .number (.integer 9)]),
    ("argument", .object [("type", .number (.integer 7)),
      ("location", .array [.object [("type", .string "name"), ("value", .string "x")]])])]

theorem toJson_ofJson_scatteredCall :
    scatteredCall.WellFormed ∧ gatheredCall.WellFormed ∧
      (ofJson scatteredCall).toJson = gatheredCall ∧
      ofJson (ofJson scatteredCall).toJson = ofJson scatteredCall ∧
      ofJson scatteredCall = ofJson gatheredCall := by
  have hNumber : ∀ i : Int, (Value.number (.integer i)).WellFormed := fun i => .number trivial
  have hScattered : scatteredCall.WellFormed := by
    refine .object (by decide) ?_
    simp only [List.forall_mem_cons]
    refine ⟨.array ?_, .object (by decide) ?_, .string "call", nofun⟩
    · simp only [List.forall_mem_cons]
      exact ⟨hNumber 1, hNumber 0, hNumber 1, hNumber 9, nofun⟩
    · simp only [List.forall_mem_cons]
      refine ⟨hNumber 7, .array ?_, nofun⟩
      simp only [List.forall_mem_cons]
      refine ⟨.object (by decide) ?_, nofun⟩
      simp only [List.forall_mem_cons]
      exact ⟨.string "x", .string "name", nofun⟩
  have hArranged : scatteredCall.arranged = gatheredCall := rfl
  have hGathered : gatheredCall.WellFormed := hArranged ▸ arranged_wellFormed hScattered
  obtain ⟨hWritten, hRead, -, hSame⟩ := toJson_ofJson_eq_arranged hScattered
  exact ⟨hScattered, hGathered, hWritten.trans hArranged, hRead,
    (hSame gatheredCall hGathered).1.mpr rfl⟩

end Tree

end SyntaxDrawing
