/-!
# JSON values

Objects keep their members in order. `assign` puts a member where its key first stood, or at the
end, so an object built with it holds each key once, as `keys_assign` says.
-/

namespace SyntaxDrawing.Json

/-- A number is kept as an integer when it is written as one and fits the range of readable
integers, and as a floating point number otherwise. -/
inductive Number
  | integer (i : Int)
  | real (x : Float)

/-- Integers are compared with integers and reals with reals; `0.0` and `-0.0` are the same. -/
def Number.same : Number → Number → Bool
  | .integer i, .integer j => i == j
  | .real x, .real y => x == y
  | _, _ => false

inductive Value
  | null
  | bool (b : Bool)
  | number (n : Number)
  | string (s : String)
  | array (items : List Value)
  | object (fields : List (String × Value))

instance : Inhabited Value := ⟨.null⟩

def lookup? {α : Type} (key : String) (fields : List (String × α)) : Option α :=
  (fields.find? fun field => field.1 == key).map (·.2)

/-- Gives the key the value: in the place of the first member with the key, or else at the end. -/
def assign {α : Type} (key : String) (value : α) : List (String × α) → List (String × α)
  | [] => [(key, value)]
  | field :: rest =>
    if field.1 = key then (key, value) :: rest else field :: assign key value rest

theorem keys_assign {α : Type} (key : String) (value : α) (fields : List (String × α)) :
    (assign key value fields).map (·.1) =
      if key ∈ fields.map (·.1) then fields.map (·.1) else fields.map (·.1) ++ [key] := by
  induction fields with
  | nil => simp [assign]
  | cons field rest ih =>
    unfold assign
    split
    · next h => simp [h]
    · next h =>
      have h' : ¬ key = field.1 := fun e => h e.symm
      simp only [List.map_cons, ih, List.mem_cons, h', false_or]
      split <;> simp

def collect {α : Type} (members : List (String × α)) : List (String × α) :=
  members.foldl (fun fields member => assign member.1 member.2 fields) []

theorem assign_of_notMem {α : Type} {key : String} {value : α} {fields : List (String × α)}
    (h : key ∉ fields.map (·.1)) : assign key value fields = fields ++ [(key, value)] := by
  induction fields with
  | nil => rfl
  | cons field rest ih =>
    rw [List.map_cons, List.mem_cons, not_or] at h
    rw [assign, if_neg (Ne.symm h.1), ih h.2, List.cons_append]

theorem foldl_assign_of_nodup {α : Type} {fields members : List (String × α)}
    (h : ((fields ++ members).map (·.1)).Nodup) :
    members.foldl (fun fields member => assign member.1 member.2 fields) fields =
      fields ++ members := by
  induction members generalizing fields with
  | nil => simp
  | cons member rest ih =>
    rw [List.append_cons] at h ⊢
    have hNew : member.1 ∉ fields.map (·.1) := by
      intro hMem
      rw [List.map_append, List.map_append, List.append_assoc] at h
      exact (List.nodup_append.mp h).2.2 _ hMem _ (by simp) rfl
    rw [List.foldl_cons, assign_of_notMem hNew, ih h]

/-- Members whose keys differ stay as they are given. -/
theorem collect_of_nodup {α : Type} {members : List (String × α)}
    (h : (members.map (·.1)).Nodup) : collect members = members :=
  foldl_assign_of_nodup h

mutual
def Value.nesting : Value → Nat
  | .array items => nestingOfItems items + 1
  | .object fields => nestingOfFields fields + 1
  | _ => 0

def nestingOfItems : List Value → Nat
  | [] => 0
  | item :: rest => max item.nesting (nestingOfItems rest)

def nestingOfFields : List (String × Value) → Nat
  | [] => 0
  | (_, value) :: rest => max value.nesting (nestingOfFields rest)
end

end SyntaxDrawing.Json
