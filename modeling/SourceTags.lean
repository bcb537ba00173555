import SourceTags.Byte
import SourceTags.Text.Utf8
import SourceTags.Source.Position
import SourceTags.Source.ByteSource
import SourceTags.Source.Cursor
import SourceTags.Source.Reader
import SourceTags.Source.File
import SourceTags.Token.Kind
import SourceTags.Token.Keyword
import SourceTags.Token.Lexicon
import SourceTags.Token.Basic
import SourceTags.Token.Trivia
import SourceTags.Token.Lexeme
import SourceTags.Token.Stream
import SourceTags.Token.Scanner
import SourceTags.Declaration.Kind
import SourceTags.Declaration.Group
import SourceTags.Declaration.TypeExpr
import SourceTags.Tag.Selection
import SourceTags.Tag.Basic
import SourceTags.Tag.Line
import SourceTags.Declaration.Pass
import SourceTags.Declaration.Function
import SourceTags.Declaration.Binding
import SourceTags.Declaration.Basic
import SourceTags.Program.Command
import SourceTags.Program.Report
import SourceTags.Main
import SourceTags.Proofs.Simulation
import SourceTags.Proofs.TokenList
import SourceTags.Proofs.Grammar
import SourceTags.Proofs.WellFormed
import SourceTags.Proofs.Tile
import SourceTags.Proofs.TileScanning
import SourceTags.Proofs.Tiling
import SourceTags.Proofs.TileRow
import SourceTags.Proofs.Concatenation
import SourceTags.Proofs.FunctionRow
import SourceTags.Proofs.Jump
import SourceTags.Proofs.Lockstep
import SourceTags.Proofs.Bookmark
import SourceTags.Proofs.Settings
import SourceTags.Proofs.Terminators
import SourceTags.Proofs.ReportedNames
import SourceTags.Proofs.NamesInOrder
import SourceTags.Proofs.Comments
import SourceTags.Proofs.CarriageReturns
import SourceTags.Proofs.LineEndings
import SourceTags.Proofs.FileEnds
import SourceTags.Proofs.Printing
import SourceTags.Proofs.Classification
import SourceTags.Proofs.FileList
import SourceTags.Proofs.StreamPrefix
import SourceTags.Proofs.ReadingOn
import SourceTags.Proofs.ReadCount
import SourceTags.Proofs.GroupEnd
import SourceTags.Proofs.TypeSkipping
import SourceTags.Proofs.BindingEnd
import SourceTags.Proofs.BindingLine
import SourceTags.Proofs.GroupedNames
import SourceTags.Proofs.NamePositions
import SourceTags.Proofs.Nesting
import SourceTags.Proofs.Utf8RoundTrip
import SourceTags.Proofs.WholeCharacters
import SourceTags.Proofs.CommandLine
import SourceTags.Proofs.KindLetters
import SourceTags.Proofs.ReadTokens
import SourceTags.Proofs.TokenReuse
import SourceTags.Proofs.TagEntries
import SourceTags.Proofs.WordNames
import SourceTags.Proofs.ContentPlace
import SourceTags.Proofs.BlockComments
import SourceTags.Proofs.HeldByte
import SourceTags.Proofs.WordPositions
import SourceTags.Proofs.GroupDepths
