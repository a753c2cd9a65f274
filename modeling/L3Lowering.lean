import L3Lowering.CommandLine.Arguments
import L3Lowering.CommandLine.Display
import L3Lowering.CommandLine.Run
import L3Lowering.Compile
import L3Lowering.Folder
import L3Lowering.L2.Convention
import L3Lowering.L2.Line
import L3Lowering.Label.Scope
import L3Lowering.Label.Stem
import L3Lowering.Label.Supply
import L3Lowering.Log
import L3Lowering.Main
import L3Lowering.Operator
import L3Lowering.Parser.Basic
import L3Lowering.Parser.Error
import L3Lowering.Parser.Grammar
import L3Lowering.Program.Basic
import L3Lowering.Program.Printer
import L3Lowering.Program.Rename
import L3Lowering.Program.Walk
import L3Lowering.Source.Basic
import L3Lowering.Source.Highlight
import L3Lowering.Text.Blank
import L3Lowering.Text.Bytes
import L3Lowering.Text.Decimal
import L3Lowering.Tile.Basic
import L3Lowering.Tile.Build
import L3Lowering.Tile.Emit
import L3Lowering.Tile.Select
import L3Lowering.Token.Basic
import L3Lowering.Token.Lexeme
import L3Lowering.Token.Lexer
import L3Lowering.Token.Scan
import L3Lowering.Proofs.DecimalText
import L3Lowering.Proofs.FreshStem
import L3Lowering.Proofs.LabelPlaces
import L3Lowering.Proofs.ScopedNames
import L3Lowering.Proofs.LabelHygiene
import L3Lowering.Proofs.Phrase
import L3Lowering.Proofs.PhraseReading
import L3Lowering.Proofs.JumpResolution
import L3Lowering.Proofs.RoundTrip
import L3Lowering.Proofs.CallingConvention
import L3Lowering.Proofs.SelectionRun
import L3Lowering.Proofs.UniqueDefinitions
import L3Lowering.Proofs.CallLabels
import L3Lowering.Proofs.Derivation
import L3Lowering.Proofs.NodeIds
import L3Lowering.Proofs.LongestLexeme
import L3Lowering.Proofs.Partition
import L3Lowering.Proofs.Parametric
import L3Lowering.Proofs.Layout
import L3Lowering.Proofs.ErrorReports
import L3Lowering.Proofs.ScopedGrammar
import L3Lowering.Proofs.SymbolicText
import L3Lowering.Proofs.EmittedText
import L3Lowering.Proofs.Lookahead
import L3Lowering.Proofs.Recompilation
import L3Lowering.Proofs.RegisterNames
import L3Lowering.Proofs.Junctures
import L3Lowering.Proofs.JunctureTracking
import L3Lowering.Proofs.EarliestError
import L3Lowering.Proofs.OperationMeaning
import L3Lowering.Proofs.FirstStem
import L3Lowering.Proofs.CoveredNodes
import L3Lowering.Proofs.FirstFault
import L3Lowering.Proofs.CallNumbering
import L3Lowering.Proofs.SignRules
import L3Lowering.Proofs.LabelTraversal
import L3Lowering.Proofs.SourceOrder
import L3Lowering.Proofs.Positions
import L3Lowering.Proofs.Underline
