import SyntaxDrawing.Proofs.Document
import SyntaxDrawing.Proofs.Graph.Outline
import SyntaxDrawing.Proofs.Json.Rendering
import SyntaxDrawing.Proofs.Tree.Nesting

/-!
# How deep the recursions go

The recursive functions are written once more for a limited stack: there is room for so many calls
inside one another, and where it runs out there is no result. What they compute from a value that
nests less deep than that is what the functions without a limit compute.
-/

namespace SyntaxDrawing

open Json

namespace Tree

def ofJsonWithin : Nat → Value → Option Tree
  | 0, _ => none
  | _ + 1, .null => some (scalar .null)
  | _ + 1, .bool b => some (scalar (.bool b))
  | _ + 1, .number n => some (scalar (.number n))
  | _ + 1, .string s => some (scalar (.string s))
  | room + 1, .array items => (items.mapM (ofJsonWithin room)).map sequence
  | room + 1, .object fields =>
    match kindOf? fields with
    | none => (fields.mapM fun m => (ofJsonWithin room m.2).map (m.1, ·)).map mapping
    | some kind =>
      ((fields.filter fun m => isField (spanOf? fields).isSome m.1).mapM
        fun m => (ofJsonWithin room m.2).map (m.1, ·)).map (node kind (spanOf? fields))

def toJsonWithin : Nat → Tree → Option Value
  | 0, _ => none
  | _ + 1, scalar s => some s.toJson
  | room + 1, sequence items => (items.mapM (toJsonWithin room)).map .array
  | room + 1, node kind span fields =>
    (fields.mapM fun m => (toJsonWithin room m.2).map (m.1, ·)).map fun members =>
      .object (collect (liftedMembers kind span ++ members))
  | room + 1, mapping fields =>
    (fields.mapM fun m => (toJsonWithin room m.2).map (m.1, ·)).map fun members =>
      .object (collect members)

end Tree

def Json.Value.writeWithin (spacing : Spacing) : Nat → Nat → String → Value → Option String
  | 0, _, _, _ => none
  | _ + 1, _, text, .null => some (text ++ "null")
  | _ + 1, _, text, .bool b => some (text ++ if b then "true" else "false")
  | _ + 1, _, text, .number n => some (text ++ n.text)
  | _ + 1, _, text, .string s => some (text ++ quote s)
  | _ + 1, _, text, .array [] => some (text ++ "[]")
  | room + 1, depth, text, .array (item :: rest) =>
    ((writeWithin spacing room (depth + 1) (text ++ "[" ++ spacing.lineAt (depth + 1)) item).bind
      (rest.foldlM fun text item =>
        writeWithin spacing room (depth + 1) (text ++ "," ++ spacing.lineAt (depth + 1)) item)).map
      (· ++ spacing.lineAt depth ++ "]")
  | _ + 1, _, text, .object [] => some (text ++ "\x7b\x7d")
  | room + 1, depth, text, .object ((key, value) :: rest) =>
    ((writeWithin spacing room (depth + 1)
      (text ++ "\x7b" ++ spacing.lineAt (depth + 1) ++ quote key ++ spacing.colon) value).bind
      (rest.foldlM fun text m =>
        writeWithin spacing room (depth + 1)
          (text ++ "," ++ spacing.lineAt (depth + 1) ++ quote m.1 ++ spacing.colon) m.2)).map
      (· ++ spacing.lineAt depth ++ "\x7d")

/-- The label of a mapping holds the texts of its values, and no other label needs a call. -/
def Tree.labelWithin (room : Nat) : Tree → Option String
  | mapping fields =>
    if fields.isEmpty then some "\x7b\x7d"
    else
      (fields.mapM fun m => ((toJsonWithin room m.2).bind (Value.writeWithin .compact room 0 "")).map
        fun text => m.1 ++ ": " ++ text).map (String.intercalate ", ")
  | t => some t.label

namespace Draft

variable {α : Type} [Coordinate α]

def emitWithin (room : Nat) (d : Draft α) (parent : Option String) (t : Tree) :
    Option (String × Draft α) :=
  (t.labelWithin room).map fun label =>
    ((d.emit parent t).1,
      { (d.emit parent t).2 with nodes := d.nodes.push (.ofSource (d.emit parent t).1 label t) })

def visitWithin (policy : Policy) : Nat → Option String → Draft α → Tree → Option (Draft α)
  | 0, _, _, _ => none
  | room + 1, parent, d, t =>
    if t.isMapping && policy = .skip then
      t.children.foldlM
        (fun d c => if c.isComposite then visitWithin policy room parent d c else some d) d
    else
      (d.emitWithin room parent t).bind fun (id, d) =>
        t.children.foldlM
          (fun d c => if c.isComposite then visitWithin policy room (some id) d c else some d) d

end Draft

section

variable {β γ : Type}

theorem mapM_eq_some {f : β → Option γ} {g : β → γ} {xs : List β} (h : ∀ x ∈ xs, f x = some (g x)) :
    xs.mapM f = some (xs.map g) := by
  induction xs with
  | nil => rfl
  | cons x rest ih =>
    rw [List.mapM_cons, h x List.mem_cons_self, ih fun y hy => h y (List.mem_cons_of_mem x hy)]
    rfl

theorem foldlM_eq_some {f : γ → β → Option γ} {g : γ → β → γ} {xs : List β}
    (h : ∀ c, ∀ x ∈ xs, f c x = some (g c x)) (c : γ) : xs.foldlM f c = some (xs.foldl g c) := by
  induction xs generalizing c with
  | nil => rfl
  | cons x rest ih =>
    rw [List.foldlM_cons, h c x List.mem_cons_self]
    exact ih (fun c y hy => h c y (List.mem_cons_of_mem x hy)) (g c x)

end

theorem ofJsonWithin_eq {room : Nat} {v : Value} (h : v.nesting < room) :
    Tree.ofJsonWithin room v = some (Tree.ofJson v) := by
  induction room generalizing v with
  | zero => cases h
  | succ room ih =>
    cases v with
    | array items =>
      rw [Value.nesting] at h
      have hItems : ∀ item ∈ items, Tree.ofJsonWithin room item = some (Tree.ofJson item) := by
        intro item hItem
        have hLe := nesting_le_of_mem_items hItem
        exact ih (by omega)
      rw [Tree.ofJsonWithin, mapM_eq_some hItems, Tree.ofJson_array]
      rfl
    | object fields =>
      rw [Value.nesting] at h
      have hFields : ∀ m ∈ fields, (Tree.ofJsonWithin room m.2).map (m.1, ·) =
          some (m.1, Tree.ofJson m.2) := by
        intro m hm
        have hLe := nesting_le_of_mem_fields hm
        rw [ih (by omega)]
        rfl
      rw [Tree.ofJsonWithin, Tree.ofJson_object]
      cases kindOf? fields with
      | none =>
        simp only
        rw [mapM_eq_some hFields]
        rfl
      | some kind =>
        simp only
        rw [mapM_eq_some fun m hm => hFields m (List.mem_of_mem_filter hm)]
        rfl
    | _ => rfl

theorem toJsonWithin_eq {room : Nat} {v : Value} (h : v.nesting < room) :
    Tree.toJsonWithin room (Tree.ofJson v) = some (Tree.ofJson v).toJson := by
  induction room generalizing v with
  | zero => cases h
  | succ room ih =>
    have hChildren : ∀ c ∈ (Tree.ofJson v).children, Tree.toJsonWithin room c = some c.toJson := by
      intro c hc
      obtain ⟨w, rfl, hLess⟩ := Tree.exists_value_of_mem_children hc
      exact ih (by omega)
    have hFields {fields : List (String × Tree)}
        (hc : (Tree.ofJson v).children = fields.map (·.2)) : ∀ m ∈ fields,
        (Tree.toJsonWithin room m.2).map (m.1, ·) = some (m.1, m.2.toJson) := by
      intro m hm
      rw [hChildren m.2 (hc ▸ List.mem_map_of_mem hm)]
      rfl
    cases hTree : Tree.ofJson v with
    | scalar s => rfl
    | sequence items =>
      rw [hTree] at hChildren
      have hItems : ∀ c ∈ items, Tree.toJsonWithin room c = some c.toJson := hChildren
      rw [Tree.toJsonWithin, mapM_eq_some hItems, Tree.toJson, Tree.toItems_eq_map]
      rfl
    | node kind span fields =>
      rw [Tree.toJsonWithin, mapM_eq_some (hFields (by rw [hTree]; rfl)), Tree.toJson,
        Tree.toFields_eq_map]
      rfl
    | mapping fields =>
      rw [Tree.toJsonWithin, mapM_eq_some (hFields (by rw [hTree]; rfl)), Tree.toJson,
        Tree.toFields_eq_map]
      rfl

theorem writeItemsOnto_eq_foldl (spacing : Spacing) (depth : Nat) (text : String)
    (items : List Value) : writeItemsOnto spacing depth text items =
      items.foldl
        (fun text item => item.writeOnto spacing depth (text ++ "," ++ spacing.lineAt depth))
        text := by
  induction items generalizing text with
  | nil => rfl
  | cons item rest ih => rw [writeItemsOnto, ih, List.foldl_cons]

theorem writeFieldsOnto_eq_foldl (spacing : Spacing) (depth : Nat) (text : String)
    (fields : List (String × Value)) : writeFieldsOnto spacing depth text fields =
      fields.foldl
        (fun text m => m.2.writeOnto spacing depth
          (text ++ "," ++ spacing.lineAt depth ++ quote m.1 ++ spacing.colon))
        text := by
  induction fields generalizing text with
  | nil => rfl
  | cons m rest ih =>
    obtain ⟨key, value⟩ := m
    rw [writeFieldsOnto, ih, List.foldl_cons]

theorem writeWithin_eq (spacing : Spacing) {room : Nat} {v : Value} (h : v.nesting < room)
    (depth : Nat) (text : String) :
    v.writeWithin spacing room depth text = some (v.writeOnto spacing depth text) := by
  induction room generalizing v depth text with
  | zero => cases h
  | succ room ih =>
    cases v with
    | array items =>
      have hItems : ∀ item ∈ items, ∀ depth text,
          item.writeWithin spacing room depth text = some (item.writeOnto spacing depth text) := by
        intro item hItem
        have hLe := nesting_le_of_mem_items hItem
        rw [Value.nesting] at h
        exact ih (by omega)
      cases items with
      | nil => rfl
      | cons item rest =>
        rw [Value.writeWithin, hItems item List.mem_cons_self, Option.bind_some, foldlM_eq_some
          fun text item hItem => hItems item (List.mem_cons_of_mem _ hItem) _ _,
          Value.writeOnto, writeItemsOnto_eq_foldl]
        rfl
    | object fields =>
      have hFields : ∀ m ∈ fields, ∀ depth text,
          m.2.writeWithin spacing room depth text = some (m.2.writeOnto spacing depth text) := by
        intro m hm
        have hLe := nesting_le_of_mem_fields hm
        rw [Value.nesting] at h
        exact ih (by omega)
      cases fields with
      | nil => rfl
      | cons m rest =>
        obtain ⟨key, value⟩ := m
        rw [Value.writeWithin, hFields (key, value) List.mem_cons_self, Option.bind_some,
          foldlM_eq_some fun text m hm => hFields m (List.mem_cons_of_mem _ hm) _ _,
          Value.writeOnto, writeFieldsOnto_eq_foldl]
        rfl
    | _ => rfl

theorem nestingOfFields_collect_le (members : List (String × Value)) :
    nestingOfFields (collect members) ≤ nestingOfFields members := by
  have hFrom : ∀ fields, nestingOfFields
      (members.foldl (fun fields member => assign member.1 member.2 fields) fields) ≤
        max (nestingOfFields fields) (nestingOfFields members) := by
    induction members with
    | nil => exact fun fields => Nat.le_max_left _ _
    | cons m rest ih =>
      intro fields
      have hAssign := nestingOfFields_assign_le m.1 m.2 fields
      have hRest := ih (assign m.1 m.2 fields)
      rw [List.foldl_cons, nestingOfFields]
      omega
  exact Nat.le_trans (hFrom []) (Nat.max_le.mpr ⟨Nat.zero_le _, Nat.le_refl _⟩)

/-- A span is a list that stood among the members. -/
theorem nestingOfFields_liftedMembers_le (kind : String) (fields : List (String × Value)) :
    nestingOfFields (liftedMembers kind (spanOf? fields)) ≤ nestingOfFields fields := by
  cases hSpan : spanOf? fields with
  | none => exact Nat.zero_le _
  | some s =>
    obtain ⟨w, hLookup, hList⟩ := Option.bind_eq_some_iff.mp hSpan
    obtain ⟨m, hFind, rfl⟩ := Option.map_eq_some_iff.mp hLookup
    have hLe := nesting_le_of_mem_fields (List.mem_of_find?_eq_some hFind)
    have hPos : 0 < m.2.nesting := by
      cases hValue : m.2 with
      | array items => exact Nat.succ_pos _
      | _ =>
        rw [hValue] at hList
        cases hList
    have hLifted : nestingOfFields (liftedMembers kind (some s)) = 1 := rfl
    omega

theorem nesting_toJson_le (v : Value) : (Tree.ofJson v).toJson.nesting ≤ v.nesting := by
  induction v using Value.induction with
  | array items ih =>
    rw [Tree.ofJson_array, Tree.toJson, Tree.toItems_eq_map, Value.nesting, Value.nesting,
      Nat.add_le_add_iff_right, nestingOfItems_le_iff]
    simp only [List.mem_map, forall_exists_index, and_imp, forall_apply_eq_imp_iff₂]
    exact fun item hItem => Nat.le_trans (ih item hItem) (nesting_le_of_mem_items hItem)
  | object fields ih =>
    have hMembers {kept : List (String × Value)} (hKept : ∀ m ∈ kept, m ∈ fields) :
        nestingOfFields (Tree.toFields (kept.map fun m => (m.1, Tree.ofJson m.2))) ≤
          nestingOfFields fields := by
      rw [Tree.toFields_eq_map, nestingOfFields_le_iff]
      simp only [List.map_map, List.mem_map, forall_exists_index, and_imp,
        forall_apply_eq_imp_iff₂]
      exact fun m hm =>
        Nat.le_trans (ih m (hKept m hm)) (nesting_le_of_mem_fields (hKept m hm))
    rw [Tree.ofJson_object, Value.nesting]
    cases kindOf? fields with
    | none =>
      have hLe := nestingOfFields_collect_le
        (Tree.toFields (fields.map fun m => (m.1, Tree.ofJson m.2)))
      simp only [Tree.toJson, Value.nesting]
      exact Nat.succ_le_succ (Nat.le_trans hLe (hMembers fun _ hm => hm))
    | some kind =>
      have hLe := nestingOfFields_collect_le (liftedMembers kind (spanOf? fields) ++
        Tree.toFields ((fields.filter fun m => isField (spanOf? fields).isSome m.1).map
          fun m => (m.1, Tree.ofJson m.2)))
      rw [nestingOfFields_append] at hLe
      simp only [Tree.toJson, Value.nesting]
      refine Nat.succ_le_succ (Nat.le_trans hLe (Nat.max_le.mpr ⟨?_, ?_⟩))
      · exact nestingOfFields_liftedMembers_le kind fields
      · exact hMembers fun _ hm => List.mem_of_mem_filter hm
  | _ => exact Nat.zero_le _

theorem labelWithin_eq {room : Nat} {v : Value} (h : v.nesting ≤ room) :
    (Tree.ofJson v).labelWithin room = some (Tree.ofJson v).label := by
  have hTexts : ∀ c ∈ (Tree.ofJson v).children,
      (Tree.toJsonWithin room c).bind (Value.writeWithin .compact room 0 "") =
        some c.toJson.compact := by
    intro c hc
    obtain ⟨w, rfl, hLess⟩ := Tree.exists_value_of_mem_children hc
    have hLe := nesting_toJson_le w
    rw [toJsonWithin_eq (by omega), Option.bind_some, writeWithin_eq _ (by omega)]
    rfl
  cases hTree : Tree.ofJson v with
  | mapping fields =>
    rw [hTree] at hTexts
    have hFields : ∀ m ∈ fields,
        ((Tree.toJsonWithin room m.2).bind (Value.writeWithin .compact room 0 "")).map
          (fun text => m.1 ++ ": " ++ text) = some (m.1 ++ ": " ++ m.2.toJson.compact) := by
      intro m hm
      rw [hTexts m.2 (List.mem_map_of_mem hm)]
      rfl
    rw [Tree.labelWithin, Tree.label, Tree.mappingLabel, mapM_eq_some hFields]
    split <;> rfl
  | _ => rfl

theorem visitItems_eq_foldl {α : Type} [Coordinate α] (policy : Policy) (parent : Option String)
    (d : Draft α) (items : List Tree) : Draft.visitItems policy parent d items =
      items.foldl (fun d c => if c.isComposite then Draft.visit policy parent d c else d) d := by
  induction items generalizing d with
  | nil => rw [Draft.visitItems, List.foldl_nil]
  | cons c rest ih => rw [Draft.visitItems, ih, List.foldl_cons]

theorem visitWithin_eq {α : Type} [Coordinate α] (policy : Policy) {room : Nat} {v : Value}
    (h : v.nesting < room) (parent : Option String) (d : Draft α) :
    Draft.visitWithin policy room parent d (Tree.ofJson v) =
      some (Draft.visit policy parent d (Tree.ofJson v)) := by
  induction room generalizing v parent d with
  | zero => cases h
  | succ room ih =>
    have hChildren : ∀ parent (d : Draft α), ∀ c ∈ (Tree.ofJson v).children,
        (if c.isComposite then Draft.visitWithin policy room parent d c else some d) =
          some (if c.isComposite then Draft.visit policy parent d c else d) := by
      intro parent d c hc
      obtain ⟨w, rfl, hLess⟩ := Tree.exists_value_of_mem_children hc
      rw [ih (by omega)]
      split <;> rfl
    have hEmit : d.emitWithin room parent (Tree.ofJson v) =
        some (d.emit parent (Tree.ofJson v)) := by
      rw [Draft.emitWithin, labelWithin_eq (by omega)]
      rfl
    rw [Draft.visitWithin, Draft.visit_eq, visitItems_eq_foldl, visitItems_eq_foldl, hEmit]
    split
    · exact foldlM_eq_some (hChildren parent) d
    · exact foldlM_eq_some (hChildren (some _)) _

end SyntaxDrawing
