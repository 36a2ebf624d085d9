import SyntaxDrawing.Proofs.Parser.Interleaving

/-!
# Files that calls leave behind

When a call has returned its file is gone, unless writing it broke off: then the file is there for
good, for such a call returns before the file would be removed. This holds however calls are
interleaved, as long as no command gives the file of its call another path.
-/

namespace SyntaxDrawing.Parser

variable {ι : Type}

/-- Where the file of a call may be at each stage, depending on what became of writing it. -/
inductive Standing (keeps : Prop) (file : String) (made : String → Prop) :
    Stage → Option Writing → Prop
  | writing (h : ∀ path, ¬ made path) : Standing keeps file made .writing none
  | running (h : keeps → ∀ path, made path → path = file) :
    Standing keeps file made .running (some .done)
  | removing {answer : Answer} (h : keeps → ∀ path, made path → path = file) :
    Standing keeps file made (.removing answer) (some .done)
  | returned {answer : Answer} (h : keeps → ∀ path, ¬ made path) :
    Standing keeps file made (.returned answer) (some .done)
  | refused {reason : String} (h : ∀ path, ¬ made path) :
    Standing keeps file made (.returned (.error (.tempFile reason))) (some (.refused reason))
  | broken {reason : String} (h : ∀ path, made path ↔ path = file) :
    Standing keeps file made (.returned (.error (.tempFile reason))) (some (.broken reason))

structure World.Orderly (r : Requests ι) (keeps : ι → Prop) (w : World ι) : Prop where
  begun : ∀ i, w.calls i = { r.call i with stage := (w.calls i).stage }
  path : ∀ i j, j ≠ i → ¬ w.files.Made j (r.file i)
  standing : ∀ i,
    Standing (keeps i) (r.file i) (w.files.Made i) (w.calls i).stage (w.written i)

section

variable {r : Requests ι} {keeps : ι → Prop} {i : ι} {d d' : Directory ι}

theorem made_update_some {file path : String} {part : List UInt8}
    (hNone : ∀ path, ¬ d.Made i path) :
    Directory.Made (Function.update d file (some ⟨some i, part⟩)) i path ↔ path = file := by
  by_cases hEq : path = file
  · refine iff_of_true ⟨part, ?_⟩ hEq
    rw [hEq, Function.update_self]
  · refine iff_of_false ?_ hEq
    rintro ⟨contents, hMade⟩
    rw [Function.update_of_ne hEq] at hMade
    exact hNone path ⟨contents, hMade⟩

theorem not_made_update_none {file path : String} (hOnly : ∀ path, d.Made i path → path = file) :
    ¬ Directory.Made (Function.update d file none) i path := by
  rintro ⟨contents, hMade⟩
  by_cases hEq : path = file
  · rw [hEq, Function.update_self] at hMade
    cases hMade
  · rw [Function.update_of_ne hEq] at hMade
    exact hEq (hOnly path ⟨contents, hMade⟩)

theorem Standing.act {stage : Stage} (hActs : r.Acts keeps i d d')
    (hStanding : Standing (keeps i) (r.file i) (d.Made i) stage (some .done)) :
    Standing (keeps i) (r.file i) (d'.Made i) stage (some .done) := by
  cases hStanding with
  | running hOnly =>
    refine .running fun hKeeps path hMade => ?_
    exact hOnly hKeeps path (hActs.keeping hKeeps path hMade)
  | removing hOnly =>
    refine .removing fun hKeeps path hMade => ?_
    exact hOnly hKeeps path (hActs.keeping hKeeps path hMade)
  | returned hNone =>
    refine .returned fun hKeeps path hMade => ?_
    exact hNone hKeeps path (hActs.keeping hKeeps path hMade)

theorem Standing.wrote {h : Host (Directory ι)} {c : Call} (hLawful : r.Lawful keeps i h)
    (hNone : ∀ path, ¬ d.Made i path) (contents : List UInt8) :
    Standing (keeps i) (r.file i) ((h.write (r.file i) contents d).2.Made i)
      (c.wrote (h.write (r.file i) contents d).1).stage
      (some (h.write (r.file i) contents d).1) := by
  rcases hWrite : h.write (r.file i) contents d with ⟨outcome, d'⟩
  cases outcome with
  | done =>
    rw [hLawful.done hWrite]
    exact .running fun _ path => (made_update_some hNone).mp
  | refused reason =>
    rw [hLawful.refused hWrite]
    exact .refused hNone
  | broken reason =>
    obtain ⟨part, -, hPart⟩ := hLawful.broken hWrite
    rw [hPart]
    exact .broken fun path => made_update_some hNone

theorem Standing.advance {h : Host (Directory ι)} {c : Call} {written : Option Writing}
    (hLawful : r.Lawful keeps i h) (hFile : c.file = r.file i)
    (hStanding : Standing (keeps i) (r.file i) (d.Made i) c.stage written) :
    Standing (keeps i) (r.file i) ((c.advance h d).2.Made i) (c.advance h d).1.stage
      (c.noted h d written) := by
  -- The stage settles what is known of the writing, so the call is followed stage by stage.
  generalize hStage : c.stage = stage at hStanding
  cases stage with
  | writing =>
    cases hStanding with
    | writing hNone =>
      rw [Call.noted, hStage, Call.advance_writing hStage, hFile]
      exact .wrote hLawful hNone _
  | running =>
    cases hStanding with
    | running hOnly =>
      rw [Call.noted, hStage, Call.advance_running hStage, hFile]
      refine .removing fun hKeeps path hMade => ?_
      exact hOnly hKeeps path ((hLawful.run _ _ _ d).keeping hKeeps path hMade)
  | removing answer =>
    cases hStanding with
    | removing hOnly =>
      rw [Call.noted, hStage, Call.advance_removing hStage, hFile, hLawful.remove]
      exact .returned fun hKeeps path => not_made_update_none (hOnly hKeeps)
  | returned answer =>
    rw [Call.noted, hStage, Call.advance_returned hStage]
    dsimp only
    rw [hStage]
    exact hStanding

end

section

variable {r : Requests ι} {keeps : ι → Prop} {i : ι} {w w' : World ι}

theorem Requests.orderly_start {d : Directory ι} (hFresh : ∀ i path, ¬ d.Made i path) :
    (r.start d).Orderly r keeps where
  begun _ := rfl
  path i j _ := hFresh j (r.file i)
  standing i := .writing (hFresh i)

theorem World.Orderly.file_eq (hOrderly : w.Orderly r keeps) (i : ι) :
    (w.calls i).file = r.file i := by
  rw [hOrderly.begun i]
  rfl

theorem World.Orderly.made_iff (hOrderly : w.Orderly r keeps) {answer : Answer}
    (hReturned : (w.calls i).stage = .returned answer) (hKeeps : keeps i) (path : String) :
    w.files.Made i path ↔ path = r.file i ∧ ∃ reason, w.written i = some (.broken reason) := by
  have hStanding := hOrderly.standing i
  generalize w.written i = written at hStanding
  rw [hReturned] at hStanding
  cases hStanding with
  | returned hNone =>
    refine iff_of_false (hNone hKeeps path) ?_
    rintro ⟨-, reason, hBroken⟩
    cases hBroken
  | refused hNone =>
    refine iff_of_false (hNone path) ?_
    rintro ⟨-, reason, hBroken⟩
    cases hBroken
  | broken hOnly =>
    rw [hOnly]
    exact ⟨fun hPath => ⟨hPath, _, rfl⟩, And.left⟩

theorem World.Orderly.of_broken (hOrderly : w.Orderly r keeps) {reason : String}
    (hBroken : w.written i = some (.broken reason)) :
    (w.calls i).stage = .returned (.error (.tempFile reason)) ∧ w.files.Made i (r.file i) := by
  have hStanding := hOrderly.standing i
  generalize (w.calls i).stage = stage at hStanding
  rw [hBroken] at hStanding
  cases hStanding with
  | broken hOnly => exact ⟨rfl, (hOnly _).mpr rfl⟩

theorem World.Orderly.complete_eq_parse (hOrderly : w.Orderly r keeps) (h : Host (Directory ι))
    (hStage : (w.calls i).stage = .writing) : (w.calls i).complete h w.files =
      parse h (r.settings i) r.directory (r.uuid i) (r.code i) w.files := by
  rw [hOrderly.begun i, hStage]
  rfl

variable [DecidableEq ι]

/-- A step of one call leaves all others as they are, with their files. -/
theorem World.Orderly.others (hOrderly : w.Orderly r keeps) (hStep : r.Step keeps i w w') :
    r.Spares i w.files w'.files ∧
      ∀ j, j ≠ i → w'.calls j = w.calls j ∧ w'.written j = w.written j := by
  cases hStep with
  | advance hLawful =>
    refine ⟨hLawful.spares_advance (hOrderly.file_eq i) (hOrderly.path i), fun j hj => ⟨?_, ?_⟩⟩
    · exact Function.update_of_ne hj _ _
    · exact Function.update_of_ne hj _ _
  | act hWritten hActs => exact ⟨hActs.toSpares, fun j hj => ⟨rfl, rfl⟩⟩

theorem World.Orderly.standing_step (hOrderly : w.Orderly r keeps) (hStep : r.Step keeps i w w') :
    w'.calls i = { r.call i with stage := (w'.calls i).stage } ∧
      Standing (keeps i) (r.file i) (w'.files.Made i) (w'.calls i).stage (w'.written i) := by
  have hStanding := hOrderly.standing i
  cases hStep with
  | advance hLawful =>
    dsimp only [World.advance]
    rw [Function.update_self, Function.update_self]
    refine ⟨Call.advance_eq.trans ?_, .advance hLawful (hOrderly.file_eq i) hStanding⟩
    rw [hOrderly.begun i]
  | act hWritten hActs =>
    rw [hWritten] at hStanding
    exact ⟨hOrderly.begun i, by rw [hWritten]; exact .act hActs hStanding⟩

theorem World.Orderly.step (hOrderly : w.Orderly r keeps) (hStep : r.Step keeps i w w') :
    w'.Orderly r keeps := by
  obtain ⟨hSpares, hOthers⟩ := hOrderly.others hStep
  obtain ⟨hBegun, hStanding⟩ := hOrderly.standing_step hStep
  refine ⟨fun j => ?_, fun j k hk => ?_, fun j => ?_⟩
  · by_cases hj : j = i
    · rw [hj]
      exact hBegun
    · rw [(hOthers j hj).1]
      exact hOrderly.begun j
  · by_cases hMaker : k = i
    -- At the path of another call nothing has changed, whoever has made what is there.
    · subst hMaker
      rintro ⟨contents, hMade⟩
      rw [hSpares.paths j hk.symm] at hMade
      exact hOrderly.path j k hk ⟨contents, hMade⟩
    · rw [hSpares.made_iff hMaker]
      exact hOrderly.path j k hk
  · by_cases hj : j = i
    · rw [hj]
      exact hStanding
    · have hMade : w'.files.Made j = w.files.Made j :=
        funext fun path => propext (hSpares.made_iff hj path)
      rw [hMade, (hOthers j hj).1, (hOthers j hj).2]
      exact hOrderly.standing j

theorem World.Orderly.run (hOrderly : w.Orderly r keeps) (hRun : r.Run keeps w w') :
    w'.Orderly r keeps := by
  induction hRun with
  | refl => exact hOrderly
  | tail _ hStep ih =>
    obtain ⟨j, hStep⟩ := hStep
    exact ih.step hStep

theorem World.Orderly.advance_congr (hOrderly : w.Orderly r keeps) {h h' : Host (Directory ι)}
    (hAgree : h.AgreeAt (r.file i) h') : w.advance i h = w.advance i h' := by
  rw [← hOrderly.file_eq i] at hAgree
  rw [World.advance, World.advance, Call.advance_congr hAgree, Call.noted_congr hAgree]

/-- Once a call has returned, its file is left just if writing it broke off, and then the answer is
that failure. No step of a call touches what others have made or where others put it, a call asks
its host for nothing but its own file, and whatever the others have done it comes to its end. -/
theorem Requests.left_iff_broken (r : Requests ι) (keeps : ι → Prop) {d : Directory ι}
    {w : World ι} (hFresh : ∀ i path, ¬ d.Made i path) (hRun : r.Run keeps (r.start d) w) :
    (∀ i answer, (w.calls i).stage = .returned answer → keeps i → ∀ path,
      w.files.Made i path ↔ path = r.file i ∧ ∃ reason, w.written i = some (.broken reason)) ∧
    (∀ i reason, w.written i = some (.broken reason) →
      (w.calls i).stage = .returned (.error (.tempFile reason)) ∧ w.files.Made i (r.file i)) ∧
    Function.Injective r.file ∧
    (∀ i w', r.Step keeps i w w' → r.Spares i w.files w'.files ∧
      ∀ j, j ≠ i → w'.calls j = w.calls j ∧ w'.written j = w.written j) ∧
    (∀ i (h h' : Host (Directory ι)), h.AgreeAt (r.file i) h' → w.advance i h = w.advance i h') ∧
    (∀ i h, r.Lawful keeps i h → ∃ w', r.Run keeps w w' ∧
      (w'.calls i).stage = .returned ((w.calls i).complete h w.files).1 ∧
      w'.files = ((w.calls i).complete h w.files).2) ∧
    (∀ i h, (w.calls i).stage = .writing → (w.calls i).complete h w.files =
      parse h (r.settings i) r.directory (r.uuid i) (r.code i) w.files) := by
  have hOrderly := (orderly_start hFresh).run hRun
  refine ⟨?_, ?_, r.file_injective, ?_, ?_, ?_, ?_⟩
  · intro i answer hReturned hKeeps path
    exact hOrderly.made_iff hReturned hKeeps path
  · intro i reason hBroken
    exact hOrderly.of_broken hBroken
  · intro i w' hStep
    exact hOrderly.others hStep
  · intro i h h' hAgree
    exact hOrderly.advance_congr hAgree
  · intro i h hLawful
    exact r.exists_run hLawful w
  · intro i h hStage
    exact hOrderly.complete_eq_parse h hStage

end

def twoRequests : Requests Bool where
  directory := "/tmp"
  settings _ := .standard
  uuid i :=
    cond i "6f1d1c0e-93b5-4c5e-9d0a-2b7f4a1c8e55" "0b54f2a8-1d3c-4e6f-8a79-c0d1e2f3a4b5"
  code _ := "1"
  length_uuid := by decide
  uuid_injective i j h := by
    cases i <;> cases j
    · rfl
    · exact absurd h (by decide)
    · exact absurd h (by decide)
    · rfl

def fullReason : String :=
  "No space left on device (os error 28)"

theorem left_iff_broken_twoRequests :
    ∃ w, twoRequests.Run (fun _ => True) (twoRequests.start fun _ => none) w ∧
      (w.calls false).stage = .returned (.error (.timeout 10000)) ∧
      (w.calls true).stage = .returned (.error (.tempFile fullReason)) ∧
      (∀ path, ¬ w.files.Made false path) ∧
      ∀ path, w.files.Made true path ↔ path = twoRequests.file true := by
  have hSlow := twoRequests.lawful_settledHost (fun _ => True) false .done .timedOut
  have hFull := twoRequests.lawful_settledHost (fun _ => True) true (.broken fullReason) .timedOut
  have hFresh (i : Bool) (path : String) : ¬ Directory.Made (fun _ => none) i path := by
    rintro ⟨contents, h⟩
    cases h
  -- The write of one call breaks off between the write and the command of the other.
  have hRun : twoRequests.Run (fun _ => True) (twoRequests.start fun _ => none) _ :=
    (((Relation.ReflTransGen.single ⟨false, .advance hSlow⟩).tail ⟨true, .advance hFull⟩).tail
      ⟨false, .advance hSlow⟩).tail ⟨false, .advance hSlow⟩
  obtain ⟨hReturned, -⟩ := twoRequests.left_iff_broken (fun _ => True) hFresh hRun
  refine ⟨_, hRun, rfl, rfl, fun path hMade => ?_, fun path => ?_⟩
  · obtain ⟨-, reason, hBroken⟩ := (hReturned false _ rfl trivial path).mp hMade
    cases hBroken
  · rw [hReturned true _ rfl trivial path]
    exact and_iff_left ⟨fullReason, rfl⟩

theorem checkOutput_one : checkOutput (Text.Utf8.encode "1") = .ok "1" := by
  have hOutput : (checkOutput (Text.Utf8.encode "1")).toOption = some "1" := by decide +kernel
  cases hCheck : checkOutput (Text.Utf8.encode "1") with
  | error failure =>
    rw [hCheck] at hOutput
    cases hOutput
  | ok document =>
    rw [hCheck] at hOutput
    cases hOutput
    rfl

def Directory.only (i : ι) (path : String) (contents : List UInt8) : Directory ι :=
  Function.update (fun _ => none) path (some ⟨some i, contents⟩)

theorem made_only (i : ι) (path : String) (contents : List UInt8) :
    (Directory.only i path contents).Made i path :=
  ⟨contents, Function.update_self ..⟩

def keptPath : String :=
  twoRequests.file true ++ ".kept"

/-- A command may give its file another path. -/
theorem acts_renamed (contents : List UInt8) : twoRequests.Acts (fun _ => False) true
    (.only true (twoRequests.file true) contents) (.only true keptPath contents) where
  paths j hj := by
    obtain rfl : j = false := by simpa using hj
    rw [Directory.only, Directory.only, Function.update_of_ne (by decide +kernel),
      Function.update_of_ne (by decide +kernel)]
  others j hj path part := by
    have hOwn (own : String) : Directory.only true own contents path ≠ some ⟨some j, part⟩ := by
      rw [Directory.only, Function.update_apply]
      split
      · intro h
        cases h
        exact hj rfl
      · intro h
        cases h
    exact iff_of_false (hOwn _) (hOwn _)
  keeping h := h.elim

/-- A call whose writing broke off has returned with its file there, and so has one whose command
has given the file another path. -/
theorem left_after_returning :
    (∃ w, twoRequests.Run (fun _ => True) (twoRequests.start fun _ => none) w ∧
      (w.calls true).stage = .returned (.error (.tempFile fullReason)) ∧
      w.files.Made true (twoRequests.file true)) ∧
    ∃ w, twoRequests.Run (fun _ => False) (twoRequests.start fun _ => none) w ∧
      (w.calls true).stage = .returned (.ok "1") ∧ w.files.Made true keptPath := by
  constructor
  · have hFull := twoRequests.lawful_settledHost (fun _ => True) true (.broken fullReason) .timedOut
    exact ⟨_, .single ⟨true, .advance hFull⟩, rfl, made_only true _ []⟩
  · have hFine := twoRequests.lawful_settledHost (fun _ => False) true .done
      (.ended (.exited 0) (Text.Utf8.encode "1") [])
    have hWritten : twoRequests.Run (fun _ => False) (twoRequests.start fun _ => none) _ :=
      .single ⟨true, .advance hFine⟩
    have hRenamed := hWritten.tail ⟨true, .act rfl (acts_renamed (Text.Utf8.encode "1"))⟩
    have hRun := (hRenamed.tail ⟨true, .advance hFine⟩).tail ⟨true, .advance hFine⟩
    obtain ⟨contents, hKept⟩ := made_only true keptPath (Text.Utf8.encode "1")
    have hOther : keptPath ≠ twoRequests.file true := by decide +kernel
    refine ⟨_, hRun, congrArg Stage.returned checkOutput_one, contents, ?_⟩
    exact (Function.update_of_ne hOther none _).trans hKept

end SyntaxDrawing.Parser
