import SyntaxDrawing.Text.Blank
import SyntaxDrawing.Text.Utf8
import SyntaxDrawing.Decimal.Text
import SyntaxDrawing.Json.Printer
import SyntaxDrawing.Json.Reader
import SyntaxDrawing.Json.Scanner
import SyntaxDrawing.Document
import SyntaxDrawing.Tree.Json
import SyntaxDrawing.Graph.Build
import SyntaxDrawing.Drawing
import SyntaxDrawing.Service.Basic
import SyntaxDrawing.Session
import SyntaxDrawing.Parser.Call
import SyntaxDrawing.Shell.Reader
import SyntaxDrawing.Shell.Pattern
import SyntaxDrawing.Shell.Arithmetic
import SyntaxDrawing.Shell.Host
import SyntaxDrawing.Main
import SyntaxDrawing.Proofs.Layout.Separation
import SyntaxDrawing.Proofs.Graph.Identifier
import SyntaxDrawing.Proofs.Graph.Outline
import SyntaxDrawing.Proofs.Graph.Forest
import SyntaxDrawing.Proofs.Graph.Description
import SyntaxDrawing.Proofs.Graph.Contraction
import SyntaxDrawing.Proofs.Graph.EdgeIdentifier
import SyntaxDrawing.Proofs.Tree.RoundTrip
import SyntaxDrawing.Proofs.Layout.Grading
import SyntaxDrawing.Proofs.Drawing
import SyntaxDrawing.Proofs.Layout.KeptTree
import SyntaxDrawing.Proofs.Drawing.LeftToRight
import SyntaxDrawing.Proofs.Json.Depth
import SyntaxDrawing.Proofs.Document
import SyntaxDrawing.Proofs.Json.Scan
import SyntaxDrawing.Proofs.Json.Remainder
import SyntaxDrawing.Proofs.Json.Trailing
import SyntaxDrawing.Proofs.Decimal.Exact
import SyntaxDrawing.Proofs.Decimal.LengthText
import SyntaxDrawing.Proofs.Text.Utf8
import SyntaxDrawing.Proofs.Json.Rendering
import SyntaxDrawing.Proofs.CommandLine.LayoutFlags
import SyntaxDrawing.Proofs.Service.Agreement
import SyntaxDrawing.Proofs.Layout.ShortestPaths
import SyntaxDrawing.Proofs.Graph.Depth
import SyntaxDrawing.Proofs.Graph.Grafting
import SyntaxDrawing.Proofs.Layout.Embedding
import SyntaxDrawing.Proofs.Tree.Part
import SyntaxDrawing.Proofs.Graph.Part
import SyntaxDrawing.Proofs.Drawing.Part
import SyntaxDrawing.Proofs.Json.ReadInduction
import SyntaxDrawing.Proofs.Graph.Recursion
import SyntaxDrawing.Proofs.Drawing.Depth
import SyntaxDrawing.Proofs.Layout.Coverage
import SyntaxDrawing.Proofs.Layout.Columns
import SyntaxDrawing.Proofs.Layout.Rearrangement
import SyntaxDrawing.Proofs.Decimal.ExactOperation
import SyntaxDrawing.Proofs.Layout.Trace
import SyntaxDrawing.Proofs.Layout.Unrounded
import SyntaxDrawing.Proofs.Graph.Hanging
import SyntaxDrawing.Proofs.Layout.Mirror
import SyntaxDrawing.Proofs.Json.Spelling
import SyntaxDrawing.Proofs.Json.ReadBack
import SyntaxDrawing.Proofs.Json.Written
import SyntaxDrawing.Proofs.CommandLine.Printing
import SyntaxDrawing.Proofs.Decimal.NaturalText
import SyntaxDrawing.Proofs.Layout.Collision
import SyntaxDrawing.Proofs.Settings
import SyntaxDrawing.Proofs.Parser.TemporaryFile
