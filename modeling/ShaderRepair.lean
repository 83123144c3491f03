import ShaderRepair.Command.Disk
import ShaderRepair.Command.Flags
import ShaderRepair.Command.Run
import ShaderRepair.Correction
import ShaderRepair.Cursor
import ShaderRepair.Descent
import ShaderRepair.Descent.Declaration
import ShaderRepair.Descent.Expression
import ShaderRepair.Descent.Statement
import ShaderRepair.Document
import ShaderRepair.Edit
import ShaderRepair.Grammar.Declaration
import ShaderRepair.Grammar.Expression
import ShaderRepair.Grammar.Procedure
import ShaderRepair.Grammar.Rule
import ShaderRepair.Grammar.Run
import ShaderRepair.Grammar.Statement
import ShaderRepair.Grammar.Symbol
import ShaderRepair.Main
import ShaderRepair.Outline
import ShaderRepair.ParseError
import ShaderRepair.Position
import ShaderRepair.Proofs.Account
import ShaderRepair.Proofs.Advance
import ShaderRepair.Proofs.Arithmetic
import ShaderRepair.Proofs.Bookkeeping
import ShaderRepair.Proofs.Boundary
import ShaderRepair.Proofs.Branches
import ShaderRepair.Proofs.Calls
import ShaderRepair.Proofs.Caret
import ShaderRepair.Proofs.Carry
import ShaderRepair.Proofs.CarryDeclaration
import ShaderRepair.Proofs.CarryExpression
import ShaderRepair.Proofs.CarrySession
import ShaderRepair.Proofs.CarryStatement
import ShaderRepair.Proofs.Confine
import ShaderRepair.Proofs.Conversion
import ShaderRepair.Proofs.ConversionDocument
import ShaderRepair.Proofs.Cover
import ShaderRepair.Proofs.Crlf
import ShaderRepair.Proofs.CrlfDocument
import ShaderRepair.Proofs.CrlfLexing
import ShaderRepair.Proofs.Cursor
import ShaderRepair.Proofs.Depth
import ShaderRepair.Proofs.DiskNames
import ShaderRepair.Proofs.Dispatch
import ShaderRepair.Proofs.Ending
import ShaderRepair.Proofs.Erasure
import ShaderRepair.Proofs.Evaluation
import ShaderRepair.Proofs.Family
import ShaderRepair.Proofs.Follow
import ShaderRepair.Proofs.FollowDeclaration
import ShaderRepair.Proofs.FollowDocument
import ShaderRepair.Proofs.FollowExpression
import ShaderRepair.Proofs.FollowStatement
import ShaderRepair.Proofs.Forest
import ShaderRepair.Proofs.Grip
import ShaderRepair.Proofs.GripDocument
import ShaderRepair.Proofs.GripNode
import ShaderRepair.Proofs.Ignored
import ShaderRepair.Proofs.InPlace
import ShaderRepair.Proofs.Insertions
import ShaderRepair.Proofs.Insignificant
import ShaderRepair.Proofs.Interleaving
import ShaderRepair.Proofs.Invariant
import ShaderRepair.Proofs.Laid
import ShaderRepair.Proofs.Legible
import ShaderRepair.Proofs.Lexing
import ShaderRepair.Proofs.LineColumn
import ShaderRepair.Proofs.Listing
import ShaderRepair.Proofs.Lookahead
import ShaderRepair.Proofs.Lossless
import ShaderRepair.Proofs.Nesting
import ShaderRepair.Proofs.NestingDocument
import ShaderRepair.Proofs.NestingGrammar
import ShaderRepair.Proofs.Number
import ShaderRepair.Proofs.Numeral
import ShaderRepair.Proofs.Omission
import ShaderRepair.Proofs.OneByOne
import ShaderRepair.Proofs.Operand
import ShaderRepair.Proofs.OperatorFamily
import ShaderRepair.Proofs.OperatorFirst
import ShaderRepair.Proofs.Options
import ShaderRepair.Proofs.Passage
import ShaderRepair.Proofs.PassageMap
import ShaderRepair.Proofs.Piece
import ShaderRepair.Proofs.Placement
import ShaderRepair.Proofs.Precedence
import ShaderRepair.Proofs.Printing
import ShaderRepair.Proofs.Procedure
import ShaderRepair.Proofs.Put
import ShaderRepair.Proofs.Reach
import ShaderRepair.Proofs.Reading
import ShaderRepair.Proofs.ReadingDeclaration
import ShaderRepair.Proofs.ReadingStatement
import ShaderRepair.Proofs.Reformat
import ShaderRepair.Proofs.Relexing
import ShaderRepair.Proofs.Relocate
import ShaderRepair.Proofs.RelocateDeclaration
import ShaderRepair.Proofs.RelocateEdits
import ShaderRepair.Proofs.RelocateExpression
import ShaderRepair.Proofs.RelocateSession
import ShaderRepair.Proofs.RelocateStatement
import ShaderRepair.Proofs.Relocation
import ShaderRepair.Proofs.Repaired
import ShaderRepair.Proofs.Resolution
import ShaderRepair.Proofs.Restore
import ShaderRepair.Proofs.RestoreDeclaration
import ShaderRepair.Proofs.RestoreDocument
import ShaderRepair.Proofs.RestoreExpression
import ShaderRepair.Proofs.RestoreLookahead
import ShaderRepair.Proofs.RestoreRun
import ShaderRepair.Proofs.RestoreSession
import ShaderRepair.Proofs.RestoreStatement
import ShaderRepair.Proofs.Retrace
import ShaderRepair.Proofs.RetraceConversion
import ShaderRepair.Proofs.RetraceDeclaration
import ShaderRepair.Proofs.RetraceDocument
import ShaderRepair.Proofs.RetraceExpression
import ShaderRepair.Proofs.RetraceSession
import ShaderRepair.Proofs.RetraceStatement
import ShaderRepair.Proofs.Runes
import ShaderRepair.Proofs.Sequel
import ShaderRepair.Proofs.SequelDocument
import ShaderRepair.Proofs.Sexp
import ShaderRepair.Proofs.Shape
import ShaderRepair.Proofs.Significant
import ShaderRepair.Proofs.Spelling
import ShaderRepair.Proofs.Splice
import ShaderRepair.Proofs.Traversal
import ShaderRepair.Proofs.Unlexable
import ShaderRepair.Proofs.Verbatim
import ShaderRepair.Proofs.Words
import ShaderRepair.Session
import ShaderRepair.Tally
import ShaderRepair.Text
import ShaderRepair.Text.Blank
import ShaderRepair.Text.Printable
import ShaderRepair.Text.Quoted
import ShaderRepair.Text.Rune
import ShaderRepair.Token
import ShaderRepair.Token.Lexer
import ShaderRepair.Token.Lexicon
import ShaderRepair.Token.Number
import ShaderRepair.Token.Pattern
import ShaderRepair.Tree.Expr
import ShaderRepair.Tree.Node
import ShaderRepair.Tree.Numbering
import ShaderRepair.Tree.Qualified
import ShaderRepair.Typing
import ShaderRepair.Typing.Table
import ShaderRepair.ValueType
import ShaderRepair.ValueType.Catalog
import ShaderRepair.ValueType.Conversion
