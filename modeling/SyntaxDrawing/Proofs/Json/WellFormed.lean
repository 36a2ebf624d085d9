import SyntaxDrawing.Json.Value
import Mathlib.Data.List.Nodup
import Mathlib.Data.List.Perm.Basic

/-!
# Well-formed JSON values

A well-formed value holds no key twice in an object and no number that is not finite. Where keys
differ, what is looked up does not depend on the order of the members.
-/

namespace SyntaxDrawing.Json

section

variable {α β : Type} {key : String} {fields : List (String × α)}

theorem lookup?_cons (member : String × α) :
    lookup? key (member :: fields) =
      if member.1 = key then some member.2 else lookup? key fields := by
  by_cases h : member.1 = key
  · rw [if_pos h, lookup?, List.find?_cons_of_pos (by simpa using h), Option.map_some]
  · rw [if_neg h, lookup?, List.find?_cons_of_neg (by simpa using h), lookup?]

theorem lookup?_map (f : α → β) :
    lookup? key (fields.map fun m => (m.1, f m.2)) = (lookup? key fields).map f := by
  induction fields with
  | nil => rfl
  | cons member rest ih =>
    rw [List.map_cons, lookup?_cons, lookup?_cons, ih]
    split <;> rfl

theorem lookup?_eq_some_iff (h : (fields.map (·.1)).Nodup) {value : α} :
    lookup? key fields = some value ↔ (key, value) ∈ fields := by
  induction fields with
  | nil => exact iff_of_false nofun List.not_mem_nil
  | cons member rest ih =>
    rw [List.map_cons, List.nodup_cons] at h
    rw [lookup?_cons, List.mem_cons]
    split
    · next hKey =>
      constructor
      · intro hValue
        cases hValue
        exact Or.inl (Prod.ext hKey.symm rfl)
      · rintro (rfl | hMem)
        · rfl
        · exact absurd (List.mem_map_of_mem hMem) (hKey ▸ h.1)
    · next hKey =>
      rw [ih h.2, or_iff_right]
      rintro rfl
      exact hKey rfl

theorem lookup?_perm {fields' : List (String × α)} (h : (fields.map (·.1)).Nodup)
    (hPerm : fields'.Perm fields) : lookup? key fields' = lookup? key fields := by
  have h' : (fields'.map (·.1)).Nodup := (hPerm.map _).nodup_iff.mpr h
  apply Option.ext
  intro value
  rw [lookup?_eq_some_iff h', lookup?_eq_some_iff h, hPerm.mem_iff]

def toFront (key : String) (fields : List (String × α)) : List (String × α) :=
  (fields.filter fun m => m.1 == key) ++ fields.filter fun m => m.1 != key

theorem toFront_perm (key : String) (fields : List (String × α)) :
    (toFront key fields).Perm fields :=
  List.filter_append_perm _ fields

theorem toFront_of_lookup? (h : (fields.map (·.1)).Nodup) {value : α}
    (hValue : lookup? key fields = some value) :
    toFront key fields = (key, value) :: fields.filter fun m => m.1 != key := by
  rw [toFront, ← List.singleton_append]
  congr 1
  induction fields with
  | nil => cases hValue
  | cons member rest ih =>
    rw [List.map_cons, List.nodup_cons] at h
    rw [lookup?_cons] at hValue
    by_cases hKey : member.1 = key
    · rw [if_pos hKey] at hValue
      cases hValue
      have hRest : (rest.filter fun m => m.1 == key) = [] := by
        rw [List.filter_eq_nil_iff]
        intro m hm hSame
        exact h.1 (hKey ▸ eq_of_beq hSame ▸ List.mem_map_of_mem hm)
      rw [List.filter_cons_of_pos (by simpa using hKey), hRest, ← hKey]
    · rw [if_neg hKey] at hValue
      rw [List.filter_cons_of_neg (by simpa using hKey), ih h.2 hValue]

end

def Number.IsFinite : Number → Prop
  | .integer _ => True
  | .real x => x.isFinite

theorem beq_self_of_isFinite {x : Float} (h : x.isFinite) : (x == x) = true := by
  have hFinite : x.toModel.unpack.isFinite = true := h
  show x.toModel.unpack.beq x.toModel.unpack = true
  cases hx : x.toModel.unpack with
  | infinity sign => rw [hx] at hFinite; cases hFinite
  | notANumber => rw [hx] at hFinite; cases hFinite
  | zero sign => cases sign <;> rfl
  | finite sign mantissa exponent hPos =>
    have hExponent : compare exponent exponent = .eq := Std.ReflCmp.compare_self
    have hMantissa : compare mantissa mantissa = .eq := Std.ReflCmp.compare_self
    have hOrder : (compare exponent exponent).then (compare mantissa mantissa) = .eq := by
      rw [hExponent, hMantissa]
      rfl
    cases sign with
    | positive => exact congrArg (fun o => some o == some Ordering.eq) hOrder
    | negative => exact congrArg (fun o => some o.swap == some Ordering.eq) hOrder

theorem Number.same_self {n : Number} (h : n.IsFinite) : n.same n = true := by
  cases n with
  | integer i => exact beq_self_eq_true i
  | real x => exact beq_self_of_isFinite h

inductive Value.WellFormed : Value → Prop
  | null : WellFormed .null
  | bool (b : Bool) : WellFormed (.bool b)
  | number {n : Number} (h : n.IsFinite) : WellFormed (.number n)
  | string (s : String) : WellFormed (.string s)
  | array {items : List Value} (h : ∀ item ∈ items, WellFormed item) : WellFormed (.array items)
  | object {fields : List (String × Value)} (hKeys : (fields.map (·.1)).Nodup)
      (h : ∀ m ∈ fields, WellFormed m.2) : WellFormed (.object fields)

end SyntaxDrawing.Json
