import Mathlib.Logic.Function.Basic
import Mathlib.Logic.Relation
import SyntaxDrawing.Parser.Call

/-!
# Calls that run at the same time

Any number of calls share a directory. They go on one at a time and in any order, and the command of
each may do as it likes to its own file, before its call has returned and afterwards. The hosts of a
call leave open what becomes of writing its file and of running its command. Main statements: files
have paths of their own, a call asks its host for no file but its own, what it does spares the files
of all others, and left to itself it comes to its end.
-/

namespace SyntaxDrawing.Parser

variable {σ ι : Type}

structure Host.AgreeAt (path : String) (h h' : Host σ) : Prop where
  write : ∀ contents s, h.write path contents s = h'.write path contents s
  run : ∀ command args millis s,
    h.run command (args ++ [path]) millis s = h'.run command (args ++ [path]) millis s
  remove : ∀ s, h.remove path s = h'.remove path s

section

variable {h h' : Host σ} {c : Call} {s : σ}

theorem Call.advance_writing (hStage : c.stage = .writing) : c.advance h s =
    (c.wrote (h.write c.file (Text.Utf8.encode c.code) s).1,
      (h.write c.file (Text.Utf8.encode c.code) s).2) := by
  rw [advance, hStage]

theorem Call.advance_running (hStage : c.stage = .running) : c.advance h s =
    (c.ran (h.run c.settings.command (c.settings.args ++ [c.file]) c.settings.timeoutMillis s).1,
      (h.run c.settings.command (c.settings.args ++ [c.file]) c.settings.timeoutMillis s).2) := by
  rw [advance, hStage]

theorem Call.advance_removing {answer : Answer} (hStage : c.stage = .removing answer) :
    c.advance h s = (c.removed answer, h.remove c.file s) := by
  rw [advance, hStage]

theorem Call.advance_returned {answer : Answer} (hStage : c.stage = .returned answer) :
    c.advance h s = (c, s) := by
  rw [advance, hStage]

theorem Call.wrote_eq (w : Writing) : c.wrote w = { c with stage := (c.wrote w).stage } := by
  cases w <;> rfl

/-- Only the stage of a call changes. -/
theorem Call.advance_eq : (c.advance h s).1 = { c with stage := (c.advance h s).1.stage } := by
  cases hStage : c.stage with
  | writing => rw [advance_writing hStage, ← wrote_eq]
  | running => rw [advance_running hStage, ran]
  | removing answer => rw [advance_removing hStage, removed]
  | returned answer => rw [advance_returned hStage]

theorem Call.complete_of_returned {answer : Answer} (hStage : c.stage = .returned answer) :
    c.complete h s = (answer, s) := by
  rw [complete]
  split
  · next hReturned =>
    cases hStage.symm.trans hReturned
    rfl
  all_goals
    next hOther => cases hStage.symm.trans hOther

theorem Call.complete_advance : (c.advance h s).1.complete h (c.advance h s).2 =
    c.complete h s := by
  cases hStage : c.stage with
  | returned answer => rw [advance_returned hStage]
  | writing | running | removing answer =>
    conv =>
      rhs
      rw [complete]
    split
    · next hReturned => cases hStage.symm.trans hReturned
    all_goals rfl

/-- A call asks its host for nothing but its own file. -/
theorem Call.advance_congr (hAgree : h.AgreeAt c.file h') : c.advance h s = c.advance h' s := by
  cases hStage : c.stage with
  | writing => rw [advance_writing hStage, advance_writing hStage, hAgree.write]
  | running => rw [advance_running hStage, advance_running hStage, hAgree.run]
  | removing answer => rw [advance_removing hStage, advance_removing hStage, hAgree.remove]
  | returned answer => rw [advance_returned hStage, advance_returned hStage]

end

/-- What is known of a call's writing after it has gone on: what became of it, if this was it. -/
def Call.noted (c : Call) (h : Host σ) (s : σ) (written : Option Writing) : Option Writing :=
  match c.stage with
  | .writing => some (h.write c.file (Text.Utf8.encode c.code) s).1
  | .running | .removing _ | .returned _ => written

theorem Call.noted_congr {h h' : Host σ} {c : Call} {s : σ} (hAgree : h.AgreeAt c.file h')
    (written : Option Writing) : c.noted h s written = c.noted h' s written := by
  rw [noted, noted, hAgree.write]

structure Entry (ι : Type) where
  maker : Option ι
  contents : List UInt8

abbrev Directory (ι : Type) : Type :=
  String → Option (Entry ι)

def Directory.Made (d : Directory ι) (i : ι) (path : String) : Prop :=
  ∃ contents, d path = some ⟨some i, contents⟩

/-- The calls that are made. What tells their files apart is of the same length everywhere. -/
structure Requests (ι : Type) where
  directory : String
  settings : ι → ParserSettings
  uuid : ι → String
  code : ι → String
  length_uuid : ∀ i, (uuid i).length = 36
  uuid_injective : Function.Injective uuid

structure World (ι : Type) where
  calls : ι → Call
  files : Directory ι
  written : ι → Option Writing

def World.advance [DecidableEq ι] (w : World ι) (i : ι) (h : Host (Directory ι)) : World ι :=
  { calls := Function.update w.calls i ((w.calls i).advance h w.files).1
    files := ((w.calls i).advance h w.files).2
    written := Function.update w.written i ((w.calls i).noted h w.files (w.written i)) }

namespace Requests

variable (r : Requests ι) (keeps : ι → Prop) (i : ι)

def file : String :=
  filePath r.directory (r.uuid i) (r.settings i).fileSuffix

def call : Call :=
  .begin (r.settings i) (r.file i) (r.code i)

def start (d : Directory ι) : World ι :=
  { calls := r.call
    files := d
    written := fun _ => none }

/-- The paths of other calls and the files that other calls have made are as they were. -/
structure Spares (d d' : Directory ι) : Prop where
  paths : ∀ j, j ≠ i → d' (r.file j) = d (r.file j)
  others : ∀ j, j ≠ i → ∀ path contents,
    d' path = some ⟨some j, contents⟩ ↔ d path = some ⟨some j, contents⟩

/-- What the command of a call may do. If it `keeps` the path of its call's file, this file has no
path afterwards that it did not have before. -/
structure Acts (d d' : Directory ι) : Prop extends r.Spares i d d' where
  keeping : keeps i → ∀ path, d'.Made i path → d.Made i path

/-- A host for a call. Anything may become of writing the file and of running the command. -/
structure Lawful (h : Host (Directory ι)) : Prop where
  done : ∀ {contents d d'}, h.write (r.file i) contents d = (.done, d') →
    d' = Function.update d (r.file i) (some ⟨some i, contents⟩)
  refused : ∀ {contents d d' reason}, h.write (r.file i) contents d = (.refused reason, d') → d' = d
  broken : ∀ {contents d d' reason}, h.write (r.file i) contents d = (.broken reason, d') →
    ∃ part, part <+: contents ∧ d' = Function.update d (r.file i) (some ⟨some i, part⟩)
  run : ∀ command args millis d,
    r.Acts keeps i d (h.run command (args ++ [r.file i]) millis d).2
  remove : ∀ d, h.remove (r.file i) d = Function.update d (r.file i) none

variable [DecidableEq ι]

/-- A call goes on, or its command does something. The command is there once the file is written. -/
inductive Step (w : World ι) : World ι → Prop
  | advance {h : Host (Directory ι)} (hLawful : r.Lawful keeps i h) : Step w (w.advance i h)
  | act {d : Directory ι} (hWritten : w.written i = some .done) (hActs : r.Acts keeps i w.files d) :
    Step w { w with files := d }

def Run : World ι → World ι → Prop :=
  Relation.ReflTransGen fun w w' => ∃ i, r.Step keeps i w w'

end Requests

theorem filePath_inj {directory uuid uuid' suffix suffix' : String}
    (hLength : uuid.length = uuid'.length)
    (h : filePath directory uuid suffix = filePath directory uuid' suffix') : uuid = uuid' := by
  have hChars := congrArg String.toList h
  simp only [filePath, String.toList_append, List.append_assoc,
    List.append_cancel_left_eq] at hChars
  exact String.toList_injective (List.append_inj_left hChars hLength)

theorem Requests.file_injective (r : Requests ι) : Function.Injective r.file := by
  intro i j h
  have hLength := (r.length_uuid i).trans (r.length_uuid j).symm
  exact r.uuid_injective (filePath_inj hLength h)

section

variable {r : Requests ι} {keeps : ι → Prop} {i : ι} {d : Directory ι}

theorem Requests.Spares.refl : r.Spares i d d :=
  ⟨fun _ _ => rfl, fun _ _ _ _ => Iff.rfl⟩

theorem Requests.Spares.update (hPath : ∀ j, j ≠ i → ¬ d.Made j (r.file i))
    {value : Option (Entry ι)} (hValue : ∀ j, j ≠ i → ∀ contents, value ≠ some ⟨some j, contents⟩) :
    r.Spares i d (Function.update d (r.file i) value) where
  paths j hj := Function.update_of_ne (fun h => hj (r.file_injective h)) _ _
  others j hj path contents := by
    by_cases hEq : path = r.file i
    · rw [hEq, Function.update_self]
      exact iff_of_false (hValue j hj contents) (fun h => hPath j hj ⟨contents, h⟩)
    · rw [Function.update_of_ne hEq]

theorem Requests.Spares.made_iff {d' : Directory ι} (h : r.Spares i d d') {j : ι} (hj : j ≠ i)
    (path : String) : d'.Made j path ↔ d.Made j path :=
  exists_congr (h.others j hj path)

theorem Requests.Lawful.spares_write {h : Host (Directory ι)} (hLawful : r.Lawful keeps i h)
    (hPath : ∀ j, j ≠ i → ¬ d.Made j (r.file i)) (contents : List UInt8) :
    r.Spares i d (h.write (r.file i) contents d).2 := by
  have hOwn : ∀ part : List UInt8, ∀ j, j ≠ i → ∀ contents,
      some (Entry.mk (some i) part) ≠ some ⟨some j, contents⟩ := by
    rintro part j hj contents hEq
    cases hEq
    exact hj rfl
  rcases hWrite : h.write (r.file i) contents d with ⟨outcome, d'⟩
  cases outcome with
  | done =>
    rw [hLawful.done hWrite]
    exact .update hPath (hOwn contents)
  | refused reason =>
    rw [hLawful.refused hWrite]
    exact .refl
  | broken reason =>
    obtain ⟨part, -, hPart⟩ := hLawful.broken hWrite
    rw [hPart]
    exact .update hPath (hOwn part)

theorem Requests.Lawful.spares_advance {h : Host (Directory ι)} {c : Call}
    (hLawful : r.Lawful keeps i h) (hFile : c.file = r.file i)
    (hPath : ∀ j, j ≠ i → ¬ d.Made j (r.file i)) : r.Spares i d (c.advance h d).2 := by
  cases hStage : c.stage with
  | writing =>
    rw [Call.advance_writing hStage, hFile]
    exact hLawful.spares_write hPath _
  | running =>
    rw [Call.advance_running hStage, hFile]
    exact (hLawful.run _ _ _ d).toSpares
  | removing answer =>
    rw [Call.advance_removing hStage, hFile, hLawful.remove]
    exact .update hPath (fun j _ contents h => by cases h)
  | returned answer =>
    rw [Call.advance_returned hStage]
    exact .refl

end

theorem Stage.exists_returned {stage : Stage} (h : stage.remaining = 0) :
    ∃ answer, stage = .returned answer := by
  cases stage with
  | returned answer => exact ⟨answer, rfl⟩
  | writing | running | removing answer => cases h

/-- Left to itself, a call comes to its end, which is the one that it is completed to. -/
theorem Requests.exists_run [DecidableEq ι] (r : Requests ι) {keeps : ι → Prop} {i : ι}
    {h : Host (Directory ι)} (hLawful : r.Lawful keeps i h) (w : World ι) : ∃ w', r.Run keeps w w' ∧
      (w'.calls i).stage = .returned ((w.calls i).complete h w.files).1 ∧
      w'.files = ((w.calls i).complete h w.files).2 := by
  -- Each step leaves fewer stages, whatever comes of it.
  induction hRemaining : (w.calls i).stage.remaining using Nat.strongRecOn generalizing w with
  | ind n ih =>
    by_cases hEnd : (w.calls i).stage.remaining = 0
    · obtain ⟨answer, hStage⟩ := Stage.exists_returned hEnd
      rw [Call.complete_of_returned hStage]
      exact ⟨w, .refl, hStage, rfl⟩
    · have hLess := Call.remaining_advance h (w.calls i) w.files hEnd
      have hCall : (w.advance i h).calls i = ((w.calls i).advance h w.files).1 :=
        Function.update_self ..
      rw [hRemaining, ← hCall] at hLess
      obtain ⟨w', hRun, hStage, hFiles⟩ := ih _ hLess (w.advance i h) rfl
      have hFilesAfter : (w.advance i h).files = ((w.calls i).advance h w.files).2 := rfl
      rw [hCall, hFilesAfter, Call.complete_advance] at hStage hFiles
      exact ⟨w', .head ⟨i, .advance hLawful⟩ hRun, hStage, hFiles⟩

def settledHost (i : ι) (outcome : Writing) (result : Running) : Host (Directory ι) where
  write path contents d :=
    match outcome with
    | .done => (outcome, Function.update d path (some ⟨some i, contents⟩))
    | .refused _ => (outcome, d)
    | .broken _ => (outcome, Function.update d path (some ⟨some i, []⟩))
  run _ _ _ d := (result, d)
  remove path d := Function.update d path none

theorem Requests.lawful_settledHost (r : Requests ι) (keeps : ι → Prop) (i : ι)
    (outcome : Writing) (result : Running) : r.Lawful keeps i (settledHost i outcome result) where
  done h := by
    cases outcome <;> cases h
    rfl
  refused h := by
    cases outcome <;> cases h
    rfl
  broken h := by
    cases outcome <;> cases h
    exact ⟨[], List.nil_prefix, rfl⟩
  run _ _ _ _ := ⟨.refl, fun _ _ h => h⟩
  remove _ := rfl

end SyntaxDrawing.Parser
