import SyntaxDrawing.Shell.Token

/-!
# Reading scripts

A descent through the grammar. Words are cut off the script as the grammar asks for tokens, since a
command in a word is read by the same grammar. What stands below a line is read at the line's end,
when the command that it belongs to has been read already, and is known to the command by a number.
Each level of the descent takes one unit of fuel.
-/

namespace SyntaxDrawing.Shell

def isNameStart (c : Char) : Bool :=
  c.isAlpha || c == '_'

def isNameChar (c : Char) : Bool :=
  c.isAlphanum || c == '_'

def isName (cs : Raw) : Bool :=
  cs.head?.any isNameStart && cs.all isNameChar

def isDelimiter (c : Char) : Bool :=
  " \t\n;&|<>()".toList.contains c

def isSpecialParameter (c : Char) : Bool :=
  "@*#?-$!".toList.contains c || c.isDigit

def specialBuiltins : List String :=
  [":", ".", "break", "continue", "eval", "exec", "exit", "export", "local", "readonly", "return",
    "set", "shift", "trap", "unset"]

inductive Stop
  | mark
  | brace
  | ending
  deriving DecidableEq

structure Quoting where
  stop : Stop
  inBraces : Bool

/-- Whether a backslash takes the meaning from a character. Anywhere else it stands for itself. -/
def Quoting.unescapes (q : Quoting) (c : Char) : Bool :=
  c == '\\' || c == '$' || c == '\x60' || (c == '"' && q.stop != .ending) ||
    (c == '\x7d' && (q.inBraces || q.stop == .brace))

def takeLines (fuel : Nat) : Reading Raw := do
  match fuel, ← Reading.take with
  | fuel + 1, some c => return c :: (← takeLines fuel)
  | _, _ => return []

def delimiterOf : Word → Raw × Bool
  | [] => ([], false)
  | .plain c :: parts =>
    let (text, isQuoted) := delimiterOf parts
    (c :: text, isQuoted)
  | .quoted text :: parts => (text ++ (delimiterOf parts).1, true)
  | .expansion _ _ :: parts => delimiterOf parts

def assignment? (word : Word) : Option (Raw × Word) :=
  let isPlainName : Part → Bool
    | .plain c => isNameChar c
    | _ => false
  let name := ((Word.bare? (word.takeWhile isPlainName)).getD [])
  match word.drop name.length with
  | .plain '=' :: value => if isName name then some (name, value) else none
  | _ => none

/-- The inside of backquotes. Between marks a backslash takes the meaning from a mark as well. -/
def takeBackquoted (isQuoted : Bool) (fuel : Nat) : Reading Raw := do
  match fuel with
  | 0 => Reading.fail .unterminatedBackquote
  | fuel + 1 =>
    let _ ← Reading.peek
    match ← Reading.take with
    | none => Reading.fail .unterminatedBackquote
    | some '\x60' => return []
    | some '\\' =>
      match ← Reading.take with
      | none => Reading.fail .unterminatedBackquote
      | some c =>
        let isTaken := c == '\\' || c == '\x60' || c == '$' || (isQuoted && c == '"')
        let inner ← takeBackquoted isQuoted fuel
        return if isTaken then c :: inner else '\\' :: c :: inner
    | some c => return c :: (← takeBackquoted isQuoted fuel)

def takeLiteral (fuel : Nat) : Reading Raw := do
  match fuel, ← Reading.take with
  | fuel + 1, some c =>
    if c = '\'' then return []
    else return c :: (← takeLiteral fuel)
  | _, _ => Reading.fail (if ← Reading.isBelow then .missingBrace else .unterminatedQuotation)

/-- The name of a parameter; between braces, `isBraced`, it may have several digits. -/
def takeName (isBraced : Bool) : Reading (Option Raw) := do
  match ← Reading.peek with
  | none => return none
  | some c =>
    if isNameStart c then return some (← Reading.takeWhile isNameChar)
    else if c.isDigit && isBraced then return some (← Reading.takeWhile Char.isDigit)
    else if isSpecialParameter c then
      Reading.skip
      return some [c]
    else return none

/-- The name behind a number sign, if a brace closes behind it at once. -/
def takeMeasured : Reading (Option Raw) := do
  let before ← get
  match ← takeName true with
  | none => return none
  | some name =>
    if name.head?.any isNameChar then return some name
    else if (← Reading.peek) = some '\x7d' then return some name
    else
      set before
      return none

/-- The sign of a modifier, and whether an empty value counts as none. A character that is no sign
is lost. -/
def takeModifier : Reading (Option (Modifier × Bool)) := do
  let orEmpty ← Reading.takeIf ':'
  let sign ← Reading.peek
  Reading.lose
  match sign with
  | some '-' => return some (.orElse, orEmpty)
  | some '=' => return some (.assigning, orEmpty)
  | some '+' => return some (.insteadOf, orEmpty)
  | some '?' => return some (.failing, orEmpty)
  | some '%' =>
    if orEmpty then return none
    else return some (.withoutEnd (← Reading.takeIf '%'), false)
  | some '#' =>
    if orEmpty then return none
    else return some (.withoutStart (← Reading.takeIf '#'), false)
  | _ => return none

def takeDirection (descriptor? : Option Nat) (isOutput : Bool) : Reading Token := do
  let descriptor := descriptor?.getD (if isOutput then 1 else 0)
  let token (direction : Direction) : Token := .redirection descriptor (.word direction)
  if ← Reading.takeIf '&' then return token .duplicate
  else if isOutput then
    if ← Reading.takeIf '>' then return token .appending
    else
      let _ ← Reading.takeIf '|'
      return token .output
  else if ← Reading.takeIf '>' then return token .both
  else if ← Reading.takeIf '<' then
    return .redirection descriptor (.text (← Reading.takeIf '-'))
  else return token .input

mutual
/-- Takes the parts of a word that are not between marks: up to a delimiter, or in braces up to the
brace that closes. The delimiter of a text below, `isMark`, has no expansions. -/
def readBare (fuel : Nat) (inBraces isMark : Bool) : Reading Word :=
  match fuel with
  | 0 => Reading.fail .missingBrace
  | fuel + 1 => do
    let more (part : Word) : Reading Word := do
      return part ++ (← readBare fuel inBraces isMark)
    match ← Reading.peek with
    | none => if inBraces then Reading.fail .missingBrace else return []
    | some '\'' =>
      Reading.skip
      more [.quoted (← takeLiteral (← get).rest.length)]
    | some '"' =>
      Reading.skip
      match ← readQuoted fuel ⟨.mark, inBraces⟩ with
      | [.expansion (.parameter ['@']) isQuoted] => more [.expansion (.parameter ['@']) isQuoted]
      | quoted => more (.quoted [] :: quoted)
    | some '\\' =>
      Reading.skip
      match ← Reading.take with
      | some c => more [.quoted [c]]
      | none => more [.plain '\\']
    | some '$' =>
      Reading.skip
      if isMark then more [.plain '$']
      else more [← readDollar fuel false]
    | some '\x60' =>
      Reading.skip
      if isMark then more [.plain '\x60']
      else more [← readBackquoted fuel false]
    | some c =>
      if inBraces then
        Reading.skip
        if c = '\x7d' then return [] else more [.plain c]
      else if isDelimiter c then return []
      else
        Reading.skip
        more [.plain c]

def readQuoted (fuel : Nat) (q : Quoting) : Reading Word :=
  match fuel with
  | 0 => Reading.fail .unterminatedQuotation
  | fuel + 1 => do
    let more (part : Word) : Reading Word := do return part ++ (← readQuoted fuel q)
    match ← Reading.peek with
    | none =>
      if q.stop = .ending then return []
      else
        Reading.fail (if ← Reading.isBelow then .missingBrace else .unterminatedQuotation)
    | some '$' =>
      Reading.skip
      more [← readDollar fuel true]
    | some '\x60' =>
      Reading.skip
      more [← readBackquoted fuel true]
    | some '\\' =>
      Reading.skip
      match ← Reading.take with
      | some c => more [.quoted (if q.unescapes c then [c] else ['\\', c])]
      | none => more [.quoted ['\\']]
    | some c =>
      Reading.skip
      match c, q.stop with
      | '"', .mark | '\x7d', .brace => return []
      | '"', .brace => more (.quoted [] :: (← readQuoted fuel ⟨.mark, true⟩))
      | c, _ => more [.quoted [c]]

/-- Takes what stands behind a dollar sign, which stands for itself if that is no expansion. -/
def readDollar (fuel : Nat) (isQuoted : Bool) : Reading Part :=
  match fuel with
  | 0 => Reading.fail .missingBrace
  | fuel + 1 => do
    match ← Reading.peek with
    | some '(' =>
      Reading.skip
      if ← Reading.takeIf '(' then
        return .expansion (.arithmetic (← readSum fuel 0)) isQuoted
      else return .expansion (.output (← Reading.unbounded (readInner fuel))) isQuoted
    | some '\x7b' =>
      Reading.skip
      return .expansion (← readBraced fuel isQuoted) isQuoted
    | _ =>
      match ← takeName false with
      | some name => return .expansion (.parameter name) isQuoted
      | none => return if isQuoted then .quoted ['$'] else .plain '$'

def readBraced (fuel : Nat) (isQuoted : Bool) : Reading Expansion :=
  match fuel with
  | 0 => Reading.fail .missingBrace
  | fuel + 1 => do
    let readRest (isQuoted : Bool) : Reading Word :=
      if isQuoted then readQuoted fuel ⟨.brace, true⟩
      else readBare fuel true false
    let malformed : Reading Expansion := do
      let _ ← readRest isQuoted
      return .malformed
    let measured ←
      if (← Reading.peek) = some '#' then
        let before ← get
        Reading.skip
        match ← takeMeasured with
        | some name => pure (some name)
        | none =>
          set before
          pure none
      else pure none
    match measured with
    | some name =>
      if ← Reading.takeIf '\x7d' then return .length name else malformed
    | none =>
      match ← takeName true with
      | none =>
        if (← Reading.peek) != some '\x7d' then Reading.lose
        malformed
      | some name =>
        if ← Reading.takeIf '\x7d' then return .parameter name
        else
          match ← takeModifier with
          | none => malformed
          | some (m, orEmpty) =>
            let isPattern :=
              match m with
              | .withoutStart _ | .withoutEnd _ => true
              | _ => false
            return .modified name m orEmpty (← readRest (isQuoted && !isPattern))

def readSum (fuel : Nat) (depth : Nat) : Reading Word :=
  match fuel with
  | 0 => Reading.fail .missingBrackets
  | fuel + 1 => do
    let more (part : Part) (depth : Nat) : Reading Word := do
      return part :: (← readSum fuel depth)
    match ← Reading.peek with
    | none => Reading.fail .missingBrackets
    | some '(' =>
      Reading.skip
      more (.plain '(') (depth + 1)
    | some ')' =>
      Reading.skip
      match depth with
      | depth + 1 => more (.plain ')') depth
      | 0 => if ← Reading.takeIf ')' then return [] else more (.plain ')') 0
    | some '$' =>
      Reading.skip
      more (← readDollar fuel true) depth
    | some '\x60' =>
      Reading.skip
      more (← readBackquoted fuel true) depth
    | some '\\' =>
      Reading.skip
      match ← Reading.take with
      | some c =>
        more (.quoted (if (⟨.mark, false⟩ : Quoting).unescapes c then [c] else ['\\', c])) depth
      | none => more (.quoted ['\\']) depth
    | some c =>
      Reading.skip
      more (.plain c) depth

/-- Takes commands up to the bracket that closes. Texts that are still owed there are empty. -/
def readInner (fuel : Nat) : Reading Command :=
  match fuel with
  | 0 => Reading.fail .missingBrackets
  | fuel + 1 => do
    let owed := (← get).owed
    modify fun s => { s with owed := [] }
    let commands ← readCommands fuel false true []
    match ← readToken fuel false false with
    | .sign ")" => modify fun s => { s with owed }
    | t => Reading.refuse t (some ")")
    return Command.ofList commands

/-- Takes commands between backquotes, which are a script of their own. What follows the commands in
it is lost. -/
def readBackquoted (fuel : Nat) (isQuoted : Bool) : Reading Part :=
  match fuel with
  | 0 => Reading.fail .unterminatedBackquote
  | fuel + 1 => do
    let length := (← get).rest.length
    let inner ← Reading.unbounded (takeBackquoted isQuoted (length + 1))
    let before ← get
    set (before.inner inner)
    let commands ← readCommands fuel false true []
    modify fun s => { before with texts := s.texts, found := s.found }
    return .expansion (.output (Command.ofList commands)) isQuoted

def readOwed (fuel : Nat) : Reading Unit :=
  match fuel with
  | 0 => pure ()
  | fuel + 1 => do
    match (← get).owed with
    | [] => pure ()
    | o :: later =>
      let before ← get
      set { before with back := none, owed := [], below := some o }.atLineStart
      let word ←
        if o.isQuoted then pure [.quoted (← takeLines (before.rest.length + 1))]
        else readQuoted fuel ⟨.ending, false⟩
      modify fun s =>
        { s with
          back := before.back
          owed := later
          found := (o.number, word) :: s.found
          below := none
          isClosed := false }
      readOwed fuel

/-- Takes the next token, which may be a keyword where a command or a case may begin. Where it may
begin on a later line, `overLines`, the ends of lines do not count. -/
def readToken (fuel : Nat) (isStart overLines : Bool) : Reading Token :=
  match fuel with
  | 0 => Reading.fail .missingBrackets
  | fuel + 1 => do
    let t ←
      match (← get).back with
      | some t =>
        modify fun s => { s with back := none }
        pure t
      | none => readNew fuel
    match t, overLines with
    | .newline, true =>
      readOwed fuel
      readToken fuel isStart true
    | t, _ => return if isStart then t.asKeyword else t

def readNew (fuel : Nat) : Reading Token :=
  match fuel with
  | 0 => Reading.fail .missingBrackets
  | fuel + 1 => do
    let pair (c : Char) : Reading Token := do
      if ← Reading.takeIf c then return .sign (String.ofList [c, c])
      else return .sign (String.singleton c)
    match ← Reading.peek with
    | none => return .ending
    | some c =>
      if c = ' ' ∨ c = '\t' then
        Reading.skip
        readNew fuel
      else if c = '#' then
        modify fun s => { s with rest := s.rest.dropWhile (· != '\n') }
        readNew fuel
      else if c = '\n' then
        Reading.skip
        return .newline
      else if c = '&' ∨ c = '|' ∨ c = ';' then
        Reading.skip
        pair c
      else if c = '(' ∨ c = ')' then
        Reading.skip
        return .sign (String.singleton c)
      else readWord fuel false

def readWord (fuel : Nat) (isMark : Bool) : Reading Token :=
  match fuel with
  | 0 => Reading.fail .missingBrace
  | fuel + 1 => do
    let word ← readBare fuel false isMark
    let descriptor? : Option (Option Nat) :=
      match word with
      | [] => some none
      | [.plain c] => if c.isDigit then some (some (c.toNat - 48)) else none
      | _ => none
    match ← Reading.peek, descriptor? with
    | some '<', some descriptor? =>
      Reading.skip
      takeDirection descriptor? false
    | some '>', some descriptor? =>
      Reading.skip
      takeDirection descriptor? true
    | _, _ => return .word word

def readTarget (fuel : Nat) (descriptor : Nat) (aim : Aim) : Reading Redirection :=
  match fuel with
  | 0 => Reading.fail .missingBrace
  | fuel + 1 => do
    match aim with
    | .word direction =>
      match ← readToken fuel false false with
      | .word word => return .mk descriptor direction word
      | t => Reading.refuse t none
    | .text isIndented =>
      match ← readMark fuel with
      | .word word =>
        let (delimiter, isQuoted) := delimiterOf word
        let number := (← get).texts
        let o : Owed := ⟨number, delimiter, isQuoted, isIndented⟩
        modify fun s => { s with owed := s.owed ++ [o], texts := number + 1 }
        return .text descriptor number
      | t => Reading.refuse t none

/-- Takes the token behind the operator of a text below. If it is a word, it is the delimiter. -/
def readMark (fuel : Nat) : Reading Token :=
  match fuel with
  | 0 => Reading.fail .missingBrace
  | fuel + 1 => do
    match ← Reading.peek with
    | some c =>
      if c = ' ' ∨ c = '\t' then
        Reading.skip
        readMark fuel
      else if isDelimiter c ∨ c = '#' then readNew fuel
      else readWord fuel true
    | none => return .ending

/-- Takes the words of a simple command; assignments stand in front of the first other word. -/
def readSimple (fuel : Nat) (line : Nat) (assignments : List (Raw × Word)) (words : List Word)
    (redirections : List Redirection) : Reading Command :=
  match fuel with
  | 0 => Reading.fail .missingBrace
  | fuel + 1 => do
    let t ← readToken fuel false false
    let finish : Reading Command := do
      Reading.giveBack t
      return .simple line assignments.reverse words.reverse redirections.reverse
    match t with
    | .word word =>
      match if words.isEmpty then assignment? word else none with
      | some assignment => readSimple fuel line (assignment :: assignments) words redirections
      | none => readSimple fuel line assignments (word :: words) redirections
    | .redirection descriptor aim =>
      let r ← readTarget fuel descriptor aim
      readSimple fuel line assignments words (r :: redirections)
    | .sign "(" =>
      match words with
      | [name] =>
        if assignments.isEmpty && redirections.isEmpty then readDefinition fuel name else finish
      | _ => finish
    | _ => finish

def readDefinition (fuel : Nat) (name : Word) : Reading Command :=
  match fuel with
  | 0 => Reading.fail .missingBrace
  | fuel + 1 => do
    match ← readToken fuel false false with
    | .sign ")" => pure ()
    | t => Reading.refuse t (some ")")
    match Word.bare? name with
    | some name =>
      if isName name && !specialBuiltins.contains (String.ofList name) then
        return .define name (← readCommand fuel true)
      else Reading.fail .badFunction
    | none => Reading.fail .badFunction

def readSign (fuel : Nat) (text : String) (isStart overLines : Bool) : Reading Unit :=
  match fuel with
  | 0 => Reading.fail .missingBrace
  | fuel + 1 => do
    let t ← readToken fuel isStart overLines
    if !t.isSign text then Reading.refuse t (some text)

def readSome (fuel : Nat) : Reading Command :=
  match fuel with
  | 0 => Reading.fail .missingBrace
  | fuel + 1 => do return Command.ofList (← readCommands fuel false false [])

def readBranch (fuel : Nat) : Reading Command :=
  match fuel with
  | 0 => Reading.fail .missingBrace
  | fuel + 1 => do
    let test ← readSome fuel
    readSign fuel "then" false false
    let first ← readSome fuel
    match ← readToken fuel false false with
    | .sign "elif" => return .branch test first (← readBranch fuel)
    | .sign "else" =>
      let second ← readSome fuel
      readSign fuel "fi" false false
      return .branch test first second
    | t =>
      if !t.isSign "fi" then Reading.refuse t (some "fi")
      return .branch test first .nothing

def readLoop (fuel : Nat) (isNegated : Bool) : Reading Command :=
  match fuel with
  | 0 => Reading.fail .missingBrace
  | fuel + 1 => do
    let test ← readSome fuel
    readSign fuel "do" false false
    let body ← readSome fuel
    readSign fuel "done" false false
    return .loop isNegated test body

def readWords (fuel : Nat) : Reading (List Word) :=
  match fuel with
  | 0 => Reading.fail .missingBrace
  | fuel + 1 => do
    match ← readToken fuel false false with
    | .word word => return word :: (← readWords fuel)
    | t =>
      Reading.giveBack t
      return []

def readEach (fuel : Nat) (line : Nat) : Reading Command :=
  match fuel with
  | 0 => Reading.fail .missingBrace
  | fuel + 1 => do
    let name ←
      match ← readToken fuel false false with
      | .word word =>
        match Word.bare? word with
        | some name => if isName name then pure name else Reading.fail .badVariable
        | none => Reading.fail .badVariable
      | _ => Reading.fail .badVariable
    let words ←
      match ← readToken fuel true true with
      | .sign "in" =>
        let words ← readWords fuel
        match ← readToken fuel false false with
        | .newline | .sign ";" => pure (some words)
        | t => Reading.refuse t none
      | .sign ";" => pure none
      | t =>
        Reading.giveBack t
        pure none
    readSign fuel "do" true true
    let body ← readSome fuel
    readSign fuel "done" false false
    return .each line name words body

/-- Takes the words between bars that one case of a choice is for. A token that is no word counts as
an empty one. -/
def readAlternatives (fuel : Nat) (first : Token) : Reading (List Word) :=
  match fuel with
  | 0 => Reading.fail .missingBrace
  | fuel + 1 => do
    let word : Word :=
      match first with
      | .word word => word
      | _ => []
    match ← readToken fuel false false with
    | .sign "|" => return word :: (← readAlternatives fuel (← readToken fuel false false))
    | .sign ")" => return [word]
    | t => Reading.refuse t (some ")")

def readCases (fuel : Nat) : Reading (List (List Word × Command)) :=
  match fuel with
  | 0 => Reading.fail .missingBrace
  | fuel + 1 => do
    match ← readToken fuel true true with
    | .sign "esac" => return []
    | t =>
      let first ← if t.isSign "(" then readToken fuel false false else pure t
      let words ← readAlternatives fuel first
      let body := Command.ofList (← readCommands fuel false true [])
      match ← readToken fuel true true with
      | .sign "esac" => return [(words, body)]
      | .sign ";;" => return (words, body) :: (← readCases fuel)
      | t => Reading.refuse t (some ";;")

def readChoice (fuel : Nat) (line : Nat) : Reading Command :=
  match fuel with
  | 0 => Reading.fail .missingBrace
  | fuel + 1 => do
    match ← readToken fuel false false with
    | .word word =>
      readSign fuel "in" true true
      return .choose line word (← readCases fuel)
    | t => Reading.fail (.unexpected t.title (some "word"))

def readRedirections (fuel : Nat) (isStart : Bool) : Reading (List Redirection) :=
  match fuel with
  | 0 => Reading.fail .missingBrace
  | fuel + 1 => do
    match ← readToken fuel isStart false with
    | .redirection descriptor aim =>
      let first ← readTarget fuel descriptor aim
      return first :: (← readRedirections fuel false)
    | t =>
      Reading.giveBack t
      return []

def readCommand (fuel : Nat) (overLines : Bool) : Reading Command :=
  match fuel with
  | 0 => Reading.fail .missingBrace
  | fuel + 1 => do
    let line := (← get).line
    let redirected (body : Command) : Reading Command := do
      let redirections ← readRedirections fuel true
      return if redirections.isEmpty then body else body.redirect line redirections
    match ← readToken fuel true overLines with
    | .sign "if" => redirected (← readBranch fuel)
    | .sign "while" => redirected (← readLoop fuel false)
    | .sign "until" => redirected (← readLoop fuel true)
    | .sign "for" => redirected (← readEach fuel line)
    | .sign "case" => redirected (← readChoice fuel line)
    | .sign "(" =>
      let body ← readSome fuel
      readSign fuel ")" false false
      redirected (.subshell line body)
    | .sign "\x7b" =>
      let body ← readSome fuel
      readSign fuel "\x7d" false false
      redirected body
    | .word word =>
      Reading.giveBack (.word word)
      readSimple fuel (← get).line [] [] []
    | .redirection descriptor aim =>
      Reading.giveBack (.redirection descriptor aim)
      readSimple fuel (← get).line [] [] []
    | t => Reading.refuse t none

def readStages (fuel : Nat) : Reading (List Command) :=
  match fuel with
  | 0 => Reading.fail .missingBrace
  | fuel + 1 => do
    let stage ← readCommand fuel true
    match ← readToken fuel false false with
    | .sign "|" => return stage :: (← readStages fuel)
    | t =>
      Reading.giveBack t
      return [stage]

def readPipeline (fuel : Nat) (overLines : Bool) : Reading Command :=
  match fuel with
  | 0 => Reading.fail .missingBrace
  | fuel + 1 => do
    let t ← readToken fuel true overLines
    let isNegated := t.isSign "!"
    if !isNegated then Reading.giveBack t
    let first ← readCommand fuel false
    let stages ←
      match ← readToken fuel false false with
      | .sign "|" => pure (first :: (← readStages fuel))
      | t =>
        Reading.giveBack t
        pure [first]
    match isNegated, stages with
    | false, [c] => return c
    | isNegated, stages => return .pipeline isNegated stages

/-- Takes what follows the first pipeline of a chain; chains associate to the left. -/
def readChain (fuel : Nat) (first : Command) : Reading Command :=
  match fuel with
  | 0 => Reading.fail .missingBrace
  | fuel + 1 => do
    match ← readToken fuel false false with
    | .sign "&&" => readChain fuel (.both first (← readPipeline fuel true))
    | .sign "||" => readChain fuel (.either first (← readPipeline fuel true))
    | t =>
      Reading.giveBack t
      return first

/-- Takes commands behind those that are done already. On a line, `isLine`, they end with the line.
Otherwise they end at a sign that cannot begin one; where there may be none, `mayEnd`, the sign may
come first. -/
def readCommands (fuel : Nat) (isLine mayEnd : Bool) (done : List Command) :
    Reading (List Command) :=
  match fuel with
  | 0 => Reading.fail .missingBrace
  | fuel + 1 => do
    let t ← readToken fuel true (!isLine)
    let finish (last : Token) : Reading (List Command) := do
      readOwed fuel
      Reading.giveBack last
      return done.reverse
    match t with
    | .newline =>
      readOwed fuel
      return done.reverse
    | .ending => finish t
    | t =>
      Reading.giveBack t
      if !isLine && mayEnd && t.isClosing then return done.reverse
      else
        let first ← readPipeline fuel false
        let command ← readChain fuel first
        let t ← readToken fuel false false
        let done := (if t.isSign "&" then .background command else command) :: done
        match t with
        | .ending =>
          readOwed fuel
          Reading.giveBack t
          return done.reverse
        | .newline =>
          Reading.giveBack t
          readCommands fuel isLine true done
        | .sign "&" | .sign ";" => readCommands fuel isLine true done
        | t =>
          if isLine then Reading.refuse t none
          else
            Reading.giveBack t
            return done.reverse
end

structure Unread where
  rest : Raw
  line : Nat

def Unread.start (script : Raw) : Unread :=
  ⟨script, 1⟩

/-- The commands of a line, what is left behind it, and the texts that stand below it. `texts` have
been announced in all. -/
structure Line where
  command : Command
  unread : Unread
  found : List (Nat × Word)
  texts : Nat

/-- Takes the next line of commands off a script. Each character is passed on at most some twenty
levels. -/
def readLine (texts : Nat) (u : Unread) : Except Misreading Line := do
  let start : Source :=
    { rest := u.rest
      line := u.line
      back := none
      owed := []
      texts
      found := []
      below := none
      isClosed := false }
  let (commands, s) ← (readCommands (40 * u.rest.length + 100) true false []).run start
  return ⟨Command.ofList commands, ⟨s.rest, s.line⟩, s.found, s.texts⟩

end SyntaxDrawing.Shell
