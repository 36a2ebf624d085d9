import SyntaxDrawing.Proofs.Json.Steps
import Mathlib.Data.List.Nodup

/-!
# Induction on what is read

Values are read from the inside out. What holds of scalars and passes from the members of arrays and
objects to these holds of everything that is read. The keys of an object that is read differ, as a
key that comes again takes the place of the old one, and the first of them is not `embeddedKey`, as
that object would be another value.
-/

namespace SyntaxDrawing.Json

variable {P : Value → Prop} {s s' : State}

theorem mem_assign {α : Type} {key : String} {value : α} {fields : List (String × α)}
    {m : String × α} (h : m ∈ assign key value fields) : m = (key, value) ∨ m ∈ fields := by
  induction fields with
  | nil => exact Or.inl (List.mem_singleton.mp h)
  | cons field rest ih =>
    unfold assign at h
    split at h
    · exact (List.mem_cons.mp h).imp_right (List.mem_cons_of_mem field)
    · rcases List.mem_cons.mp h with rfl | hRest
      · exact Or.inr List.mem_cons_self
      · exact (ih hRest).imp_right (List.mem_cons_of_mem field)

theorem nodup_keys_assign {α : Type} {key : String} {value : α} {fields : List (String × α)}
    (h : (fields.map (·.1)).Nodup) : ((assign key value fields).map (·.1)).Nodup := by
  rw [keys_assign]
  split
  · exact h
  · next hNew =>
    rw [List.nodup_append]
    refine ⟨h, List.nodup_singleton key, ?_⟩
    rintro a ha b hb rfl
    rw [List.mem_singleton.mp hb] at ha
    exact hNew ha

theorem keys_assign_ne_nil {α : Type} {key : String} {value : α} {fields : List (String × α)} :
    (assign key value fields).map (·.1) ≠ [] := by
  rw [keys_assign]
  split
  · next hOld => exact List.ne_nil_of_mem hOld
  · exact List.append_ne_nil_of_right_ne_nil _ (List.cons_ne_nil _ _)

/-- A key that is assigned comes first only where there is none before it. -/
theorem head?_keys_assign {α : Type} (key : String) (value : α) (fields : List (String × α)) :
    ((assign key value fields).map (·.1)).head? = (fields.map (·.1) ++ [key]).head? := by
  rw [keys_assign]
  split
  · next hOld =>
    cases fields with
    | nil => cases hOld
    | cons m fields => rfl
  · rfl

def Frame.Holds (P : Value → Prop) : Frame → Prop
  | .array items => ∀ item ∈ items, P item
  | .object fields key => (fields.map (·.1)).Nodup ∧
      (fields.map (·.1) ++ [key]).head? ≠ some embeddedKey ∧ ∀ m ∈ fields, P m.2
  | .embedded .. => True

structure State.Holds (P : Value → Prop) (s : State) : Prop where
  phase : ∀ v, s.phase = .after v → P v
  frames : ∀ f ∈ s.frames, f.Holds P

/-- A property of scalars that arrays and objects have if their members do. -/
structure Inherited (P : Value → Prop) : Prop where
  scalar : ∀ {rest v rest'}, Scalar rest v rest' → P v
  array : ∀ {items}, (∀ item ∈ items, P item) → P (.array items)
  object : ∀ {fields : List (String × Value)}, (fields.map (·.1)).Nodup →
    (fields.map (·.1)).head? ≠ some embeddedKey → (∀ m ∈ fields, P m.2) → P (.object fields)

theorem Frame.Holds.assign {fields : List (String × Value)} {key : String}
    (h : Frame.Holds P (.object fields key)) {v : Value} (hv : P v) :
    ((Json.assign key v fields).map (·.1)).Nodup ∧
      ((Json.assign key v fields).map (·.1)).head? ≠ some embeddedKey ∧
      ∀ m ∈ Json.assign key v fields, P m.2 := by
  refine ⟨nodup_keys_assign h.1, head?_keys_assign key v fields ▸ h.2.1, ?_⟩
  intro m hm
  rcases mem_assign hm with rfl | hOld
  · exact hv
  · exact h.2.2 m hOld

theorem Within.holds (hP : Inherited P) (h : Within s s') (hs : s.Holds P) : s'.Holds P := by
  have hValue (p : Phase) (hp : p = .value) : ∀ v, p = .after v → P v := by
    rintro v rfl
    cases hp
  have hAfter {w : Value} (hw : P w) : ∀ v, Phase.after w = .after v → P v := by
    rintro v ⟨⟩
    exact hw
  cases h with
  | scalar _ hScalar => exact ⟨hAfter (hP.scalar hScalar), hs.frames⟩
  | emptyArray => exact ⟨hAfter (hP.array nofun), hs.frames⟩
  | openArray => exact ⟨hValue _ rfl, List.forall_mem_cons.mpr ⟨nofun, hs.frames⟩⟩
  | emptyObject => exact ⟨hAfter (hP.object List.nodup_nil nofun nofun), hs.frames⟩
  | openObject _ _ _ _ hne =>
    refine ⟨hValue _ rfl, List.forall_mem_cons.mpr ⟨⟨List.nodup_nil, ?_, nofun⟩, hs.frames⟩⟩
    exact fun hHead => hne (Option.some.inj hHead)
  | nextItem hp hf =>
    obtain ⟨hItems, hFrames⟩ := List.forall_mem_cons.mp (hf ▸ hs.frames)
    refine ⟨hValue _ rfl, List.forall_mem_cons.mpr ⟨?_, hFrames⟩⟩
    exact List.forall_mem_cons.mpr ⟨hs.phase _ hp, hItems⟩
  | closeArray hp hf =>
    obtain ⟨hItems, hFrames⟩ := List.forall_mem_cons.mp (hf ▸ hs.frames)
    refine ⟨hAfter (hP.array ?_), hFrames⟩
    intro item hItem
    exact List.forall_mem_cons.mpr ⟨hs.phase _ hp, hItems⟩ item (List.mem_reverse.mp hItem)
  | nextMember hp hf =>
    obtain ⟨hFields, hFrames⟩ := List.forall_mem_cons.mp (hf ▸ hs.frames)
    obtain ⟨hKeys, hLead, hMembers⟩ := hFields.assign (hs.phase _ hp)
    refine ⟨hValue _ rfl, List.forall_mem_cons.mpr ⟨⟨hKeys, ?_, hMembers⟩, hFrames⟩⟩
    rwa [List.head?_append_of_ne_nil _ keys_assign_ne_nil]
  | closeObject hp hf =>
    obtain ⟨hFields, hFrames⟩ := List.forall_mem_cons.mp (hf ▸ hs.frames)
    obtain ⟨hKeys, hLead, hMembers⟩ := hFields.assign (hs.phase _ hp)
    exact ⟨hAfter (hP.object hKeys hLead hMembers), hFrames⟩

theorem Reached.holds (hP : Inherited P) {text : List UInt8} (h : Reached text s) : s.Holds P := by
  induction h with
  | initial => exact ⟨nofun, nofun⟩
  | step _ hStep ih =>
    cases moves_of_step hStep with
    | within h => exact h.holds hP ih
    | enter => exact ⟨nofun, List.forall_mem_cons.mpr ⟨trivial, ih.frames⟩⟩
    | leave hp hf =>
      refine ⟨?_, (List.forall_mem_cons.mp (hf ▸ ih.frames)).2⟩
      rintro v ⟨⟩
      exact ih.phase _ hp

theorem Inherited.of_read (hP : Inherited P) {text : List UInt8} {v : Value}
    (h : read text = .ok v) : P v := by
  obtain ⟨last, hReached, hp, -, -⟩ := reached_of_read h
  exact (hReached.holds hP).phase v hp

end SyntaxDrawing.Json
