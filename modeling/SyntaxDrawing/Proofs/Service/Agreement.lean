import SyntaxDrawing.Proofs.CommandLine.LayoutFlags
import SyntaxDrawing.Proofs.CommandLine.Printing
import SyntaxDrawing.Proofs.Decimal.LengthText
import SyntaxDrawing.Proofs.Json.Rendering
import SyntaxDrawing.Proofs.Json.Scan
import SyntaxDrawing.Proofs.Json.Trailing
import SyntaxDrawing.Proofs.Text.Utf8
import SyntaxDrawing.Service.Basic

/-!
# One drawing on every path

A tree reaches its drawing as the body of a request, as what the parser prints or as the input of a
command line. What is drawn is the same, and a text that is no tree is refused on each path.
-/

namespace SyntaxDrawing

open Json Text

variable {text : List UInt8} {v : Value}

theorem lt_of_isBlankByte {b : UInt8} (h : isBlankByte b = true) : b < 0x80 := by
  simp only [isBlankByte, Bool.or_eq_true, beq_iff_eq] at h
  rcases h with ((rfl | rfl) | rfl) | rfl <;> decide

/-- The scanner relays every text that can be read, without the blanks around it. -/
theorem scanDocument_of_readDocument {s : String} (h : readDocument (Utf8.encode s) = .ok v) :
    ∃ d, scanDocument (Utf8.encode s) = .ok d ∧ Utf8.encode d = trimBlank (Utf8.encode s) := by
  obtain ⟨last, hr, hp, hf, hEnd⟩ := reached_of_read (readDocument_eq_ok_iff.1 h).2
  have hStep : last.scan.step = .ok (.finished last.rest) := by
    simp [State.scan, scanAround, hf, hp, Phase.awaits, Scan.step]
  have hScan : scanValue (skipBlank (Utf8.encode s)) = .ok last.rest := by
    rw [scanValue_skipBlank, hr.scan_run, Scan.run_eq_ok hStep]
  obtain ⟨d, hd⟩ := Utf8.exists_encode_eq_trim (fun _ => lt_of_isBlankByte) s
  exact ⟨d, scanDocument_eq_ok_iff.2 ⟨last.rest, hScan, hEnd, hd⟩, hd.symm⟩

/-- What the scanner relays reads as the text does. -/
theorem readDocument_of_scanDocument {d : String} (h : scanDocument text = .ok d) :
    readDocument (Utf8.encode d) = .ok v ↔ readDocument text = .ok v := by
  obtain ⟨-, -, -, hd⟩ := scanDocument_eq_ok_iff.1 h
  rw [← hd, readDocument_trimBlank_eq_ok_iff]

theorem malformed_of_scanDocument {d : String} {f : DocumentFailure}
    (h : scanDocument text = .ok d) (hText : readDocument text = .error f) :
    ∃ f', readDocument (Utf8.encode d) = .error f' := by
  cases hd : readDocument (Utf8.encode d) with
  | error f' => exact ⟨f', rfl⟩
  | ok v =>
    rw [(readDocument_of_scanDocument h).1 hd] at hText
    cases hText

namespace Service

variable {s : Service} {r : Request} {f : DocumentFailure}

theorem respond_post {path : String} {e : Endpoint} (hMethod : r.method = "POST")
    (hPath : r.path = path) (he : Endpoint.ofPath? path = some e) (hPost : e.methods = ["POST"]) :
    s.respond r = (s.serve r e).adding always := by
  have hOptions : ("POST" == "OPTIONS") = false := by decide
  simp [respond, route, hMethod, hPath, he, hPost, hOptions]

def Request.Posts (r : Request) (path : String) : Prop :=
  r.method = "POST" ∧ r.path = path

def ParserYields (s : Service) (r : Request) (text : List UInt8) : Prop :=
  ∃ code, sourceOf r = .ok code ∧ s.parser code = Parser.checkOutput text

theorem respond_graphOfTree (h : r.Posts "/graph/ast") :
    s.respond r = (ofResult (s.graphOfTree r)).adding always :=
  respond_post (e := .graphOfTree) h.1 h.2 (by decide) rfl

theorem respond_graph (h : r.Posts "/graph") :
    s.respond r = (ofResult (s.graph r)).adding always :=
  respond_post (e := .graph) h.1 h.2 (by decide) rfl

theorem respond_parse (h : r.Posts "/parse") :
    s.respond r = (ofResult (s.parse r)).adding always :=
  respond_post (e := .parse) h.1 h.2 (by decide) rfl

theorem parse_of_yields (h : s.ParserYields r text) {d : String}
    (hd : scanDocument text = .ok d) : s.parse r = .ok d := by
  obtain ⟨code, hCode, hParser⟩ := h
  simp [parse, hCode, hParser, Parser.checkOutput, hd]

theorem parse_of_yields_error (h : s.ParserYields r text) {failure : Json.Failure}
    (hd : scanDocument text = .error failure) :
    s.parse r = .error (.parser (.invalidOutput failure)) := by
  obtain ⟨code, hCode, hParser⟩ := h
  simp [parse, hCode, hParser, Parser.checkOutput, hd]

theorem graphOfTree_eq_ok (hSize : r.body.length ≤ bodyLimit) (h : readDocument r.body = .ok v) :
    s.graphOfTree r = .ok (s.drawingText v) := by
  simp [graphOfTree, Nat.not_lt.2 hSize, h]

theorem graphOfTree_eq_error (hSize : r.body.length ≤ bodyLimit)
    (h : readDocument r.body = .error f) :
    ∃ refusal, s.graphOfTree r = .error refusal ∧ refusal.status = 400 := by
  cases f with
  | tooDeep d => exact ⟨.treeTooDeep, by simp [graphOfTree, Nat.not_lt.2 hSize, h], rfl⟩
  | malformed failure => exact ⟨.invalidBody, by simp [graphOfTree, Nat.not_lt.2 hSize, h], rfl⟩

theorem graph_eq_ok {text : String} (hYields : s.ParserYields r (Utf8.encode text))
    (h : readDocument (Utf8.encode text) = .ok v) : s.graph r = .ok (s.drawingText v) := by
  obtain ⟨d, hd, -⟩ := scanDocument_of_readDocument h
  simp [graph, parse_of_yields hYields hd, (readDocument_of_scanDocument hd).2 h]

theorem graph_eq_error (hYields : s.ParserYields r text) (h : readDocument text = .error f) :
    ∃ refusal, s.graph r = .error refusal ∧ refusal.status = 500 := by
  cases hd : scanDocument text with
  | error failure =>
    exact ⟨.parser (.invalidOutput failure), by simp [graph, parse_of_yields_error hYields hd], rfl⟩
  | ok d =>
    obtain ⟨f', hf'⟩ := malformed_of_scanDocument hd h
    cases f' with
    | tooDeep depth =>
      exact ⟨.outputTooDeep, by simp [graph, parse_of_yields hYields hd, hf'], rfl⟩
    | malformed failure =>
      exact ⟨.outputMalformed, by simp [graph, parse_of_yields hYields hd, hf'], rfl⟩

end Service

namespace CommandLine

/-- The command line lays out this text as the service would draw it. -/
def Surroundings.LaysOut (env : Surroundings) (words : List String) (s : Service)
    (text : List UInt8) : Prop :=
  ∃ i, interpret env.baseUrl words = .ok i ∧ i.subcommand = .layout ∧
    i.arguments.policy = s.policy ∧ i.arguments.geometry = s.geometry ∧
    env.contents i.input = .ok text

theorem Surroundings.run_eq {env : Surroundings} {words : List String} {s : Service} {text : String}
    (h : env.LaysOut words s (Utf8.encode text)) : ∃ a : Arguments,
      a.policy = s.policy ∧ a.geometry = s.geometry ∧
      env.run words = .ofResult (runLayout a text) := by
  obtain ⟨i, hWords, hLayout, hPolicy, hGeometry, hContents⟩ := h
  refine ⟨i.arguments, hPolicy, hGeometry, ?_⟩
  simp [Surroundings.run, hWords, Invocation.run, hLayout, hContents, sourceText]

end CommandLine

namespace Service

/-- Every path draws this tree from this text. -/
structure Draws (s : Service) (text : String) (v : Value) : Prop where
  posted : ∀ r : Request, r.Posts "/graph/ast" → r.body = Utf8.encode text →
    (s.respond r).status = 200 ∧ (s.respond r).body = s.drawingText v
  parsed : ∀ r : Request, r.Posts "/graph" → s.ParserYields r (Utf8.encode text) →
    (s.respond r).status = 200 ∧ (s.respond r).body = s.drawingText v
  printed : ∀ (env : CommandLine.Surroundings) (words : List String),
    env.LaysOut words s (Utf8.encode text) →
    ∃ output, env.run words = .printed output ∧
      output = CommandLine.line (drawJson s.policy s.geometry v).toJson.indented ∧
      withoutBlanks output = withoutBlanks (s.drawingText v)
  relayed : ∀ r : Request, r.Posts "/parse" → s.ParserYields r (Utf8.encode text) →
    (s.respond r).status = 200 ∧ Utf8.encode (s.respond r).body = trimBlank (Utf8.encode text)

/-- No path that draws takes this text. -/
structure Refuses (s : Service) (text : String) (f : DocumentFailure) : Prop where
  posted : ∀ r : Request, r.Posts "/graph/ast" → r.body = Utf8.encode text →
    (s.respond r).status = 400
  parsed : ∀ r : Request, r.Posts "/graph" → s.ParserYields r (Utf8.encode text) →
    (s.respond r).status = 500
  printed : ∀ (env : CommandLine.Surroundings) (words : List String),
    env.LaysOut words s (Utf8.encode text) → env.run words = .failed (.invalidTree f)

variable {s : Service} {text : String}

theorem draws_of_readDocument (hSize : (Utf8.encode text).length ≤ bodyLimit)
    (h : readDocument (Utf8.encode text) = .ok v) : s.Draws text v where
  posted r hr hBody := by
    rw [respond_graphOfTree hr,
      graphOfTree_eq_ok (hBody ▸ hSize) (hBody ▸ h : readDocument r.body = .ok v)]
    exact ⟨rfl, rfl⟩
  parsed r hr hYields := by
    rw [respond_graph hr, graph_eq_ok hYields h]
    exact ⟨rfl, rfl⟩
  printed env words hWords := by
    obtain ⟨a, hPolicy, hGeometry, hRun⟩ := CommandLine.Surroundings.run_eq hWords
    refine ⟨CommandLine.line (drawJson s.policy s.geometry v).toJson.indented, ?_, rfl, ?_⟩
    · rw [hRun, CommandLine.runLayout, h, hPolicy, hGeometry]
      rfl
    · exact withoutBlanks_indented_line _
  relayed r hr hYields := by
    obtain ⟨d, hd, hTrim⟩ := scanDocument_of_readDocument h
    rw [respond_parse hr, parse_of_yields hYields hd]
    exact ⟨rfl, hTrim⟩

theorem refuses_of_readDocument {f : DocumentFailure}
    (hSize : (Utf8.encode text).length ≤ bodyLimit)
    (h : readDocument (Utf8.encode text) = .error f) : s.Refuses text f where
  posted r hr hBody := by
    obtain ⟨refusal, hRefusal, hStatus⟩ := graphOfTree_eq_error (s := s)
      (hBody ▸ hSize) (hBody ▸ h : readDocument r.body = .error f)
    rw [respond_graphOfTree hr, hRefusal]
    exact hStatus
  parsed r hr hYields := by
    obtain ⟨refusal, hRefusal, hStatus⟩ := graph_eq_error hYields h
    rw [respond_graph hr, hRefusal]
    exact hStatus
  printed env words hWords := by
    obtain ⟨a, -, -, hRun⟩ := CommandLine.Surroundings.run_eq hWords
    rw [hRun, CommandLine.runLayout, h]
    rfl

end Service

/-- A tree is drawn the same whether it is posted, printed by the parser or laid out by a command
line, and what the parser prints of it is relayed without the blanks around it. What is no tree is
refused on each path. A command line has flags for every geometry of positive lengths around the
standard centre. -/
theorem drawing_agrees (s : Service) (text : String)
    (hSize : (Utf8.encode text).length ≤ Service.bodyLimit) :
    (∀ v, readDocument (Utf8.encode text) = .ok v → s.Draws text v) ∧
    (∀ f, readDocument (Utf8.encode text) = .error f → s.Refuses text f) ∧
    ((∀ d : CommandLine.Dimension, Decimal.isPositive (d.lengthIn s.geometry) = true) →
      ∃ lengths : CommandLine.Dimension → String,
        ∀ d, readLength (lengths d) = .ok (d.lengthIn s.geometry)) ∧
    (∀ (env : CommandLine.Surroundings) (lengths : CommandLine.Dimension → String),
      (∀ d, readLength (lengths d) = .ok (d.lengthIn s.geometry)) →
      s.geometry.originX = Layout.Geometry.standard.originX → env.input = Utf8.encode text →
      env.LaysOut (CommandLine.layoutWords s.policy lengths) s (Utf8.encode text)) := by
  refine ⟨fun v hv => Service.draws_of_readDocument hSize hv,
    fun f hf => Service.refuses_of_readDocument hSize hf, fun hPositive => ?_,
    fun env lengths hLengths hOrigin hInput => ?_⟩
  · choose lengths hLengths using fun d => Decimal.exists_readLength_eq (hPositive d)
    exact ⟨lengths, hLengths⟩
  · obtain ⟨i, hWords, hLayout, hPolicy, hGeometry, hStandard⟩ :=
      CommandLine.interpret_layoutWords env.baseUrl s.policy hLengths hOrigin
    refine ⟨i, hWords, hLayout, hPolicy, hGeometry, ?_⟩
    rw [hStandard, CommandLine.Surroundings.contents, if_pos rfl, hInput]

def constantService (text : String) : Service :=
  ⟨fun _ => Parser.checkOutput (Utf8.encode text), .emit, .standard⟩

theorem constantService_yields (text path : String) :
    (constantService text).ParserYields ⟨"POST", path, [("content-type", "application/json")],
      Utf8.encode "[\"x\"]"⟩ (Utf8.encode text) := by
  have hJson : (Service.MediaType.ofString? "application/json").any Service.MediaType.isJson
      = true := by decide +kernel
  have hSmall : (Utf8.encode "[\"x\"]").length ≤ Service.bodyLimit := by decide +kernel
  have hNotObject : Service.expect '\x7b' (Utf8.encode "[\"x\"]") = none := by decide +kernel
  have hArray : Service.expect '[' (Utf8.encode "[\"x\"]") = some (Utf8.encode "\"x\"]") := by
    decide +kernel
  have hQuote : Service.expect '"' (Utf8.encode "\"x\"]") = some (Utf8.encode "x\"]") := by
    decide +kernel
  have hText : readText (Utf8.encode "x\"]") = .ok ("x", Utf8.encode "]") :=
    readText_eq_ok_iff.2 ⟨_, .of_plain (by decide +kernel), by decide +kernel⟩
  have hEnd : Service.expect ']' (Utf8.encode "]") = some [] := by decide +kernel
  have hCode : Service.readCode (Utf8.encode "[\"x\"]") = some "x" := by
    simp [Service.readCode, hNotObject, hArray, Service.readSingle, Service.expectText, hQuote,
      hText, hEnd, Except.toOption, skipBlank]
  refine ⟨"x", ?_, rfl⟩
  simp [Service.sourceOf, Service.Request.header?, hJson, hSmall.not_gt, hCode]

/-- A call of two arguments, as a parser writes it. -/
def twoArgumentCall : Value :=
  .object [("type", .string "call"), ("name", .object [("type", .string "id")]),
    ("args", .array [.object [("type", .string "int")], .object [("type", .string "str")]])]

theorem readDocument_twoArgumentCall :
    readDocument (Utf8.encode (twoArgumentCall.compact ++ "\n")) = .ok twoArgumentCall := by
  have hKeys : twoArgumentCall.HasDistinctKeys := by simp [twoArgumentCall, Value.HasDistinctKeys]
  have hIntegers : twoArgumentCall.HasShortIntegers := by
    simp [twoArgumentCall, Value.HasShortIntegers]
  have hSelf : twoArgumentCall.StandsForItself := by
    simp [twoArgumentCall, Value.StandsForItself, embeddedKey]
  exact readDocument_written isBlank_compact hKeys hIntegers hSelf CommandLine.isBlank_newline

theorem drawing_agrees_twoArgumentCall :
    let text := twoArgumentCall.compact ++ "\n"
    let s := constantService text
    (s.respond ⟨"POST", "/graph/ast", [], Utf8.encode text⟩).body =
        s.drawingText twoArgumentCall ∧
      (s.respond ⟨"POST", "/graph", [("content-type", "application/json")],
        Utf8.encode "[\"x\"]"⟩).body = s.drawingText twoArgumentCall ∧
      Utf8.encode (s.respond ⟨"POST", "/parse", [("content-type", "application/json")],
        Utf8.encode "[\"x\"]"⟩).body = Utf8.encode twoArgumentCall.compact ∧
      (∃ lengths output,
        CommandLine.Surroundings.run ⟨none, Utf8.encode text, ⟨[], []⟩, [], fun _ _ => none⟩
          (CommandLine.layoutWords .emit lengths) = .printed output ∧
        withoutBlanks output = withoutBlanks (s.drawingText twoArgumentCall)) ∧
      (Graph.build (α := Float) s.policy (.ofJson twoArgumentCall)).nodes.map (·.id) =
        ["call_1", "id_1", "unnamed_1", "int_1", "str_1"] := by
  intro text s
  have hPositive (d : CommandLine.Dimension) :
      Decimal.isPositive (d.lengthIn s.geometry) = true := by
    cases d <;> decide +kernel
  have hTrim : trimBlank (Utf8.encode text) = Utf8.encode twoArgumentCall.compact := by
    decide +kernel
  obtain ⟨hDraws, -, hFlags, hWords⟩ := drawing_agrees s text (by decide +kernel)
  have hDrawn := hDraws twoArgumentCall readDocument_twoArgumentCall
  obtain ⟨lengths, hLengths⟩ := hFlags hPositive
  obtain ⟨output, hOutput, -, hSame⟩ := hDrawn.printed _ _
    (hWords ⟨none, Utf8.encode text, ⟨[], []⟩, [], fun _ _ => none⟩ lengths hLengths rfl rfl)
  exact ⟨(hDrawn.posted _ ⟨rfl, by decide +kernel⟩ rfl).2,
    (hDrawn.parsed _ ⟨rfl, by decide +kernel⟩ (constantService_yields _ _)).2,
    (hDrawn.relayed _ ⟨rfl, by decide +kernel⟩ (constantService_yields _ _)).2.trans hTrim,
    ⟨lengths, output, hOutput, hSame⟩, by decide +kernel⟩

end SyntaxDrawing
