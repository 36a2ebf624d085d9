import SyntaxDrawing.Proofs.CommandLine.LayoutFlags
import SyntaxDrawing.Proofs.Decimal.ExactOperation
import SyntaxDrawing.Proofs.Decimal.NaturalText

/-!
# What the environment settles

Each setting is read from a variable of its own. A number that cannot be used gives way to the
default; a blank command and an unknown policy are refused, in this order. The lengths are those
that the command line reads from the same texts, and all of them are positive.
-/

namespace SyntaxDrawing

open CommandLine (Dimension)

def CommandLine.Dimension.variable : Dimension → String
  | .nodeWidth => "LAYOUT_NODE_WIDTH"
  | .nodeHeight => "LAYOUT_NODE_HEIGHT"
  | .horizontalGap => "LAYOUT_HORIZONTAL_GAP"
  | .verticalGap => "LAYOUT_VERTICAL_GAP"

theorem Environment.text?_eq_some_iff {env : Environment} {name text : String} :
    env.text? name = some text ↔ env name = some (Text.Utf8.encode text) := by
  rw [Environment.text?, Option.bind_eq_some_iff]
  constructor
  · rintro ⟨bytes, hBytes, hText⟩
    rw [hBytes, Text.Utf8.encode_of_decode? hText]
  · intro h
    exact ⟨_, h, Text.Utf8.decode?_encode text⟩

theorem readLength_eq_ok_iff {text : String} {x : Float} : readLength text = .ok x ↔
    Decimal.readFloat (Text.trim text) = .ok x ∧ Decimal.isPositive x = true := by
  rw [readLength]
  split
  · next fault hRead => simp [hRead]
  · next y hRead =>
    rw [hRead, Except.ok.injEq]
    split
    · next hPositive =>
      rw [Except.ok.injEq]
      constructor
      · rintro rfl
        exact ⟨rfl, hPositive⟩
      · exact And.left
    · next hPositive =>
      constructor
      · intro h
        cases h
      · rintro ⟨rfl, h⟩
        exact absurd h hPositive

theorem Layout.Geometry.standard_isPositive (d : Dimension) :
    Decimal.isPositive (d.lengthIn .standard) = true := by
  cases d <;> simp only [CommandLine.Dimension.lengthIn, Layout.Geometry.standard] <;>
    exact Decimal.isPositive_ofNat (by omega) (by omega)

namespace Settings

def IsNumber (text? : Option String) (bound default n : Nat) : Prop :=
  (∃ text, text? = some text ∧ n < bound ∧ Decimal.Denotes text n) ∨
    n = default ∧ ∀ text m, text? = some text → Decimal.Denotes text m → bound ≤ m

def IsLength (text? : Option String) (default x : Float) : Prop :=
  (∃ text, text? = some text ∧ readLength text = .ok x) ∨
    x = default ∧ ∀ text, text? = some text → ∃ failure, readLength text = .error failure

theorem naturalOf_isNumber (env : Environment) (name : String) (bound default : Nat) :
    IsNumber (env.text? name) bound default (naturalOf env name bound default) := by
  rw [naturalOf]
  split
  · next hUnset => exact Or.inr ⟨rfl, fun text m hText => by cases hUnset.symm.trans hText⟩
  · next text hText =>
    cases hRead : Decimal.readNatural bound (Text.trim text) with
    | some n => exact Or.inl ⟨text, hText, Decimal.readNatural_trim_eq_some_iff.mp hRead⟩
    | none =>
      refine Or.inr ⟨rfl, ?_⟩
      intro other m hOther hDenotes
      cases hText.symm.trans hOther
      by_contra hLess
      have hSome := Decimal.readNatural_trim_eq_some_iff.mpr ⟨Nat.lt_of_not_le hLess, hDenotes⟩
      cases hRead.symm.trans hSome

theorem lengthOf_isLength (env : Environment) (name : String) (default : Float) :
    IsLength (env.text? name) default (lengthOf env name default) := by
  rw [lengthOf, numberOf]
  split
  · next hUnset => exact Or.inr ⟨ite_self default, fun text h => by cases hUnset.symm.trans h⟩
  · next text hText =>
    split
    · next x hRead =>
      by_cases hPositive : Decimal.isPositive x = true
      · rw [if_pos hPositive]
        exact Or.inl ⟨text, hText, readLength_eq_ok_iff.mpr ⟨hRead, hPositive⟩⟩
      · rw [if_neg hPositive]
        refine Or.inr ⟨rfl, ?_⟩
        intro other hOther
        cases hText.symm.trans hOther
        exact ⟨.notPositive text, by rw [readLength, hRead]; exact if_neg hPositive⟩
    · next fault hRead =>
      refine Or.inr ⟨ite_self default, ?_⟩
      intro other hOther
      cases hText.symm.trans hOther
      exact ⟨.unreadable fault, by rw [readLength, hRead]⟩

theorem IsLength.isPositive {text? : Option String} {default x : Float}
    (h : IsLength text? default x) (hDefault : Decimal.isPositive default = true) :
    Decimal.isPositive x = true := by
  rcases h with ⟨text, -, hRead⟩ | ⟨rfl, -⟩
  · exact (readLength_eq_ok_iff.mp hRead).2
  · exact hDefault

structure Follows (env : Environment) (s : Settings) : Prop where
  port : IsNumber (env.text? "PORT") UInt16.size 4000 s.port
  command : s.parser.command = (env.text? "PARSER_COMMAND").getD "stree"
  args : s.parser.args = ((env.text? "PARSER_ARGS").map Text.words).getD ["json"]
  fileSuffix : s.parser.fileSuffix = (env.text? "PARSER_FILE_SUFFIX").getD ".rb"
  timeout : ∃ seconds, s.parser.timeoutMillis = 1000 * seconds ∧
    IsNumber (env.text? "PARSER_TIMEOUT_SECS") UInt64.size 10 seconds
  length : ∀ d : Dimension,
    IsLength (env.text? d.variable) (d.lengthIn .standard) (d.lengthIn s.geometry)
  positive : ∀ d : Dimension, ∃ q : ℚ, Decimal.exactValue? (d.lengthIn s.geometry) = some q ∧ 0 < q
  originX : s.geometry.originX = 0
  policy : s.policy.name = (env.text? "GRAPH_UNTYPED_MAPPINGS").getD "emit"

def BlankCommand (env : Environment) : Prop :=
  ∃ text, env.text? "PARSER_COMMAND" = some text ∧ ∀ c ∈ text.toList, Text.isBlank c = true

def StrangePolicy (env : Environment) (text : String) : Prop :=
  env.text? "GRAPH_UNTYPED_MAPPINGS" = some text ∧ text ≠ "emit" ∧ text ≠ "skip"

def DependsOn {β : Type} (name : String) (field : Settings → β) : Prop :=
  ∀ env env' s s', ofEnvironment env = .ok s → ofEnvironment env' = .ok s' →
    env.text? name = env'.text? name → field s = field s'

structure OwnVariables : Prop where
  port : DependsOn "PORT" Settings.port
  command : DependsOn "PARSER_COMMAND" fun s => s.parser.command
  args : DependsOn "PARSER_ARGS" fun s => s.parser.args
  fileSuffix : DependsOn "PARSER_FILE_SUFFIX" fun s => s.parser.fileSuffix
  timeout : DependsOn "PARSER_TIMEOUT_SECS" fun s => s.parser.timeoutMillis
  length : ∀ d : Dimension, DependsOn d.variable fun s => d.lengthIn s.geometry
  policy : DependsOn "GRAPH_UNTYPED_MAPPINGS" Settings.policy

theorem isAllBlank_command {env : Environment} :
    Text.isAllBlank ((env.text? "PARSER_COMMAND").getD "stree") = true ↔ BlankCommand env := by
  rw [Text.isAllBlank, List.all_eq_true, BlankCommand]
  cases env.text? "PARSER_COMMAND" with
  | none =>
    constructor
    · intro h
      exact absurd (h 's' (by decide)) (by decide)
    · rintro ⟨text, hText, -⟩
      cases hText
  | some text => simp

theorem ofName?_eq_some_iff {text : String} {policy : Policy} :
    Policy.ofName? text = some policy ↔ policy.name = text := by
  unfold Policy.ofName?
  split
  · cases policy <;> decide
  · cases policy <;> decide
  · next hEmit hSkip =>
    constructor
    · intro h
      cases h
    · rintro rfl
      cases policy
      · exact (hEmit rfl).elim
      · exact (hSkip rfl).elim

theorem strangePolicy_iff {env : Environment} {text : String} : StrangePolicy env text ↔
    (env.text? "GRAPH_UNTYPED_MAPPINGS").getD "emit" = text ∧ ∀ policy : Policy,
      policy.name ≠ text := by
  rw [StrangePolicy]
  constructor
  · rintro ⟨hText, hEmit, hSkip⟩
    refine ⟨by rw [hText]; rfl, ?_⟩
    rintro (_ | _) rfl
    · exact hEmit rfl
    · exact hSkip rfl
  · rintro ⟨hText, hNone⟩
    refine ⟨?_, (hNone .emit).symm, (hNone .skip).symm⟩
    cases hSet : env.text? "GRAPH_UNTYPED_MAPPINGS" with
    | none =>
      rw [hSet] at hText
      exact absurd hText (hNone .emit)
    | some other =>
      rw [hSet] at hText
      exact congrArg some hText

structure ReadFrom (env : Environment) (s : Settings) : Prop where
  port : s.port = naturalOf env "PORT" UInt16.size 4000
  parser : s.parser = parserOf env ((env.text? "PARSER_COMMAND").getD "stree")
  geometry : s.geometry = geometryOf env
  policy : s.policy.name = (env.text? "GRAPH_UNTYPED_MAPPINGS").getD "emit"

/-- The three outcomes, of which each excludes the others. -/
theorem ofEnvironment_cases (env : Environment) :
    BlankCommand env ∧ ofEnvironment env = .error .emptyParserCommand ∨
      ¬ BlankCommand env ∧
        ((∃ text, StrangePolicy env text ∧ ofEnvironment env = .error (.unknownPolicy text)) ∨
          (∀ text, ¬ StrangePolicy env text) ∧
            ∃ s, ofEnvironment env = .ok s ∧ ReadFrom env s) := by
  by_cases hBlank : BlankCommand env
  · exact Or.inl ⟨hBlank, if_pos (isAllBlank_command.mpr hBlank)⟩
  · refine Or.inr ⟨hBlank, ?_⟩
    have hCommand := mt isAllBlank_command.mp hBlank
    cases hName : Policy.ofName? ((env.text? "GRAPH_UNTYPED_MAPPINGS").getD "emit") with
    | none =>
      refine Or.inl ⟨_, strangePolicy_iff.mpr ⟨rfl, ?_⟩, (if_neg hCommand).trans ?_⟩
      · intro policy hPolicy
        cases hName.symm.trans (ofName?_eq_some_iff.mpr hPolicy)
      · dsimp only [Policy.name]
        rw [hName]
    | some policy =>
      have hPolicy := ofName?_eq_some_iff.mp hName
      refine Or.inr ⟨?_, ⟨_, _, _, policy⟩, (if_neg hCommand).trans ?_, rfl, rfl, rfl, hPolicy⟩
      · intro text hStrange
        obtain ⟨hText, hNone⟩ := strangePolicy_iff.mp hStrange
        exact hNone policy (hPolicy.trans hText)
      · dsimp only [Policy.name]
        rw [hName]
        rfl

theorem geometryOf_lengthIn (env : Environment) (d : Dimension) :
    d.lengthIn (geometryOf env) = lengthOf env d.variable (d.lengthIn .standard) := by
  cases d <;> rfl

theorem ReadFrom.follows {env : Environment} {s : Settings} (h : ReadFrom env s) :
    Follows env s where
  port := by
    rw [h.port]
    exact naturalOf_isNumber env _ _ _
  command := by rw [h.parser, parserOf]
  args := by rw [h.parser]; rfl
  fileSuffix := by rw [h.parser]; rfl
  timeout := ⟨_, by rw [h.parser]; rfl, naturalOf_isNumber env _ _ _⟩
  length d := by
    rw [h.geometry, geometryOf_lengthIn]
    exact lengthOf_isLength env _ _
  positive d := by
    rw [← Decimal.isPositive_iff, h.geometry, geometryOf_lengthIn]
    exact (lengthOf_isLength env _ _).isPositive (Layout.Geometry.standard_isPositive d)
  originX := by rw [h.geometry]; rfl
  policy := h.policy

theorem readFrom_of_ofEnvironment {env : Environment} {s : Settings}
    (h : ofEnvironment env = .ok s) : ReadFrom env s := by
  obtain ⟨-, hEmpty⟩ | ⟨-, ⟨text, -, hUnknown⟩ | ⟨-, s', hOk, hRead⟩⟩ := ofEnvironment_cases env
  · cases hEmpty.symm.trans h
  · cases hUnknown.symm.trans h
  · cases hOk.symm.trans h
    exact hRead

theorem naturalOf_congr {env env' : Environment} {name : String} (bound default : Nat)
    (h : env.text? name = env'.text? name) :
    naturalOf env name bound default = naturalOf env' name bound default := by
  rw [naturalOf, naturalOf, h]

theorem lengthOf_congr {env env' : Environment} {name : String} (default : Float)
    (h : env.text? name = env'.text? name) :
    lengthOf env name default = lengthOf env' name default := by
  rw [lengthOf, lengthOf, numberOf, numberOf, h]

theorem dependsOn_of_readFrom {β : Type} {name : String} {field : Settings → β}
    (h : ∀ env env' s s', ReadFrom env s → ReadFrom env' s' → env.text? name = env'.text? name →
      field s = field s') : DependsOn name field := by
  intro env env' s s' hs hs' hText
  exact h env env' s s' (readFrom_of_ofEnvironment hs) (readFrom_of_ofEnvironment hs') hText

theorem ownVariables : OwnVariables where
  port := dependsOn_of_readFrom fun env env' s s' hs hs' hText => by
    rw [hs.port, hs'.port, naturalOf_congr _ _ hText]
  command := dependsOn_of_readFrom fun env env' s s' hs hs' hText => by
    rw [hs.parser, hs'.parser, parserOf, parserOf, hText]
  args := dependsOn_of_readFrom fun env env' s s' hs hs' hText => by
    rw [hs.parser, hs'.parser, parserOf, parserOf, hText]
  fileSuffix := dependsOn_of_readFrom fun env env' s s' hs hs' hText => by
    rw [hs.parser, hs'.parser, parserOf, parserOf, hText]
  timeout := dependsOn_of_readFrom fun env env' s s' hs hs' hText => by
    rw [hs.parser, hs'.parser, parserOf, parserOf, naturalOf_congr _ _ hText]
  length d := dependsOn_of_readFrom fun env env' s s' hs hs' hText => by
    rw [hs.geometry, hs'.geometry, geometryOf_lengthIn, geometryOf_lengthIn,
      lengthOf_congr _ hText]
  policy := dependsOn_of_readFrom fun env env' s s' hs hs' hText => by
    have hName : s.policy.name = s'.policy.name := by rw [hs.policy, hs'.policy, hText]
    have hPolicy := ofName?_eq_some_iff.mpr hName.symm
    rw [ofName?_eq_some_iff.mpr rfl] at hPolicy
    exact Option.some.inj hPolicy

section

variable {env : Environment}

theorem ofEnvironment_eq_emptyParserCommand_iff :
    ofEnvironment env = .error .emptyParserCommand ↔ BlankCommand env := by
  obtain ⟨hBlank, hEmpty⟩ | ⟨hBlank, ⟨text, -, hUnknown⟩ | ⟨-, s, hOk, -⟩⟩ :=
    ofEnvironment_cases env
  · exact iff_of_true hEmpty hBlank
  · exact iff_of_false (fun h => by cases hUnknown.symm.trans h) hBlank
  · exact iff_of_false (fun h => by cases hOk.symm.trans h) hBlank

theorem ofEnvironment_eq_unknownPolicy_iff {text : String} :
    ofEnvironment env = .error (.unknownPolicy text) ↔
      ¬ BlankCommand env ∧ StrangePolicy env text := by
  obtain ⟨hBlank, hEmpty⟩ | ⟨hBlank, ⟨other, hStrange, hUnknown⟩ | ⟨hNone, s, hOk, -⟩⟩ :=
    ofEnvironment_cases env
  · exact iff_of_false (fun h => by cases hEmpty.symm.trans h) (fun h => h.1 hBlank)
  · constructor
    · intro h
      cases hUnknown.symm.trans h
      exact ⟨hBlank, hStrange⟩
    · rintro ⟨-, hText⟩
      rw [hUnknown, ← (strangePolicy_iff.mp hStrange).1, ← (strangePolicy_iff.mp hText).1]
  · exact iff_of_false (fun h => by cases hOk.symm.trans h) (fun h => hNone text h.2)

theorem exists_follows_iff : (∃ s, ofEnvironment env = .ok s ∧ Follows env s) ↔
    ¬ BlankCommand env ∧ ∀ text, ¬ StrangePolicy env text := by
  obtain ⟨hBlank, hEmpty⟩ | ⟨hBlank, ⟨text, hStrange, hUnknown⟩ | ⟨hNone, s, hOk, hRead⟩⟩ :=
    ofEnvironment_cases env
  · refine iff_of_false ?_ (fun h => h.1 hBlank)
    rintro ⟨s, hOk, -⟩
    cases hEmpty.symm.trans hOk
  · refine iff_of_false ?_ (fun h => h.2 text hStrange)
    rintro ⟨s, hOk, -⟩
    cases hUnknown.symm.trans hOk
  · exact iff_of_true ⟨s, hOk, hRead.follows⟩ ⟨hBlank, hNone⟩

end

/-- A blank command is refused first, then a strange policy, and with neither there are settings,
which say what the variables say. Bytes that are no text count as if the variable were not set. -/
theorem ofEnvironment_outcome (env : Environment) :
    (∀ name text, env.text? name = some text ↔ env name = some (Text.Utf8.encode text)) ∧
    (ofEnvironment env = .error .emptyParserCommand ↔ BlankCommand env) ∧
    (∀ text, ofEnvironment env = .error (.unknownPolicy text) ↔
      ¬ BlankCommand env ∧ StrangePolicy env text) ∧
    ((∃ s, ofEnvironment env = .ok s ∧ Follows env s) ↔
      ¬ BlankCommand env ∧ ∀ text, ¬ StrangePolicy env text) ∧
    OwnVariables := by
  refine ⟨?_, ofEnvironment_eq_emptyParserCommand_iff, ?_, exists_follows_iff, ownVariables⟩
  · intro name text
    exact Environment.text?_eq_some_iff
  · intro text
    exact ofEnvironment_eq_unknownPolicy_iff

end Settings

end SyntaxDrawing
