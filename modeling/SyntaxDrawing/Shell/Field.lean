import SyntaxDrawing.Files
import SyntaxDrawing.Shell.Pattern

/-!
# Fields

An expanded word is split into fields where its loose pieces hold separators. Blanks that separate
count once, however many they are; every other separator ends a field of its own. A field that is a
pattern stands for the paths that it fits, if there are any.
-/

namespace SyntaxDrawing.Shell

/-- A part of a word that has been expanded: a loose piece is still to be split into fields. Items
are separated by zeros, which no text can hold. -/
inductive Piece
  | plain (c : Char)
  | fixed (text : Raw)
  | loose (text : Raw)
  | items (text : Raw)

def Piece.text : Piece → Raw
  | .plain c => [c]
  | .fixed text | .loose text | .items text => text

def Piece.pattern : Piece → Pattern
  | .plain c => [(c, true)]
  | .loose text => text.map fun c => (c, true)
  | .fixed text | .items text => text.map fun c => (c, false)

/-- Pieces in the place of a value: what is plain becomes loose. -/
def Piece.loosen (pieces : List Piece) : List Piece :=
  let take (piece : Piece) (rest : List Piece) : List Piece :=
    match piece, rest with
    | .plain c, .loose text :: rest => .loose (c :: text) :: rest
    | .plain c, rest => .loose [c] :: rest
    | piece, rest => piece :: rest
  pieces.foldr take []

/-- Fields in the making, the last finished one first. The current one has its last character first;
it is `isOpen` if it is a field even when it holds nothing. `isAfterItems` says that the last loose
piece or items were items. -/
structure Fields where
  done : List Pattern
  current : Pattern
  isOpen : Bool
  isAfterItems : Bool

/-- What may be skipped behind the end of a field: nothing, blanks, or blanks with one other
separator among them. -/
inductive Gap
  | nothing
  | blanks
  | separator
  deriving DecidableEq

namespace Fields

def start : Fields :=
  ⟨[], [], false, false⟩

def add (f : Fields) (pattern : Pattern) : Fields :=
  { f with current := pattern.reverse ++ f.current, isOpen := true }

def close (f : Fields) : Fields :=
  { f with done := f.current.reverse :: f.done, current := [], isOpen := false }

/-- Adds a loose piece. Behind items every separator ends a field. -/
def addLoose (f : Fields) (separators text : Raw) : Fields :=
  let take (state : Fields × Gap) (c : Char) : Fields × Gap :=
    let (f, gap) := state
    let isBlank := c == ' ' || c == '\t' || c == '\n' || c == '\x00'
    if c != '\x00' && !separators.contains c then (f.add [(c, true)], .nothing)
    else if f.isAfterItems then (f.close, .nothing)
    else if isBlank then
      if gap != .nothing then (f, gap)
      else if f.isOpen then (f.close, .separator)
      else (f, .nothing)
    else if gap = .separator then (f, .blanks)
    else (f.close, .blanks)
  { (text.foldl take (f, .nothing)).1 with isAfterItems := false }

/-- Adds items, each of which but the last ends a field. -/
def addItems (f : Fields) (text : Raw) : Fields :=
  let take (f : Fields) (c : Char) : Fields :=
    if c = '\x00' then f.close else f.add [(c, false)]
  { text.foldl take f with isAfterItems := true }

def addPiece (separators : Raw) (f : Fields) : Piece → Fields
  | .loose text => f.addLoose separators text
  | .items text => f.addItems text
  | piece => f.add piece.pattern

def toList (f : Fields) : List Pattern :=
  (if f.isOpen || f.isAfterItems then f.close else f).done.reverse

end Fields

def fieldsOf (separators : Raw) (pieces : List Piece) : List Pattern :=
  (pieces.foldl (Fields.addPiece separators) .start).toList

def Pattern.names (p : Pattern) : List Pattern :=
  let take (a : Char × Bool) (names : List Pattern) : List Pattern :=
    match names with
    | [] => [[a]]
    | name :: rest => if a.1 == '/' then [] :: name :: rest else (a :: name) :: rest
  p.foldr take [[]]

/-- The names in a directory that a pattern fits. A leading point has to be written out. -/
def namesLike (files : Files) (directory : Place) (p : Pattern) : List String :=
  let isHidden (name : String) : Bool := name.startsWith "."
  let names := "." :: ".." :: files.entries directory
  let names := names.filter fun name => fits p (Raw.ofString name)
  names.filter fun name => !isHidden name || p.literal.head? == some '.'

def pathsLike (files : Files) (place : Place) (written : Raw) : List Pattern → List Raw
  | [] => []
  | [p] =>
    if p.isEmpty then [written]
    else if p.isOpen then (namesLike files place p).map fun name => written ++ Raw.ofString name
    else
      let name := p.literal.toText
      let exists? := (files.enter place name).isOk || (files.contents? (place ++ [name])).isSome
      if exists? then [written ++ p.literal] else []
  | p :: rest =>
    let names := if p.isOpen then namesLike files place p else [p.literal.toText]
    names.flatMap fun name =>
      match files.enter place name with
      | .ok place => pathsLike files place (written ++ Raw.ofString name ++ ['/']) rest
      | .error _ => []

def Pattern.words (p : Pattern) (files : Files) (directory : Place) : List Raw :=
  if p.isOpen then
    let origin := if p.head?.any fun a => a.1 == '/' then [] else directory
    match pathsLike files origin [] p.names with
    | [] => [p.text]
    | paths => paths
  else [p.text]

end SyntaxDrawing.Shell
