import GraalScript.Builtin
import GraalScript.Code.Assembly
import GraalScript.Code.BigEndian
import GraalScript.Code.Buffer
import GraalScript.Code.Decode
import GraalScript.Code.Image
import GraalScript.Code.Instr
import GraalScript.Code.Opcode
import GraalScript.Code.Pool
import GraalScript.Code.Printable
import GraalScript.Compile
import GraalScript.Diagnostic
import GraalScript.Generate.Basic
import GraalScript.Generate.Expr
import GraalScript.Generate.Stmt
import GraalScript.Handles
import GraalScript.Header
import GraalScript.Listing
import GraalScript.Main
import GraalScript.Number.Dyadic
import GraalScript.Number.Shortest
import GraalScript.Proofs.AnnouncedCalls
import GraalScript.Proofs.BufferRequests
import GraalScript.Proofs.CallHistory
import GraalScript.Proofs.Capacity
import GraalScript.Proofs.Code.ImageRead
import GraalScript.Proofs.Code.Instructions
import GraalScript.Proofs.Code.Requests
import GraalScript.Proofs.Code.Texts
import GraalScript.Proofs.Code.Transcript
import GraalScript.Proofs.Compilation
import GraalScript.Proofs.ControlFlow
import GraalScript.Proofs.ErrorLines
import GraalScript.Proofs.ForeignTexts
import GraalScript.Proofs.Generate.Agree
import GraalScript.Proofs.Generate.CodeAt
import GraalScript.Proofs.Generate.ExprLayout
import GraalScript.Proofs.Generate.Fits
import GraalScript.Proofs.Generate.Lays
import GraalScript.Proofs.Generate.Opening
import GraalScript.Proofs.Generate.ProgramLayout
import GraalScript.Proofs.Generate.Recast
import GraalScript.Proofs.Generate.Regions
import GraalScript.Proofs.Generate.Slot
import GraalScript.Proofs.Generate.Spelled
import GraalScript.Proofs.Generate.StmtLayout
import GraalScript.Proofs.Generate.Trace
import GraalScript.Proofs.Hoisting
import GraalScript.Proofs.Invariance
import GraalScript.Proofs.ItemLocality
import GraalScript.Proofs.JoinedClasses
import GraalScript.Proofs.LexicalScoping
import GraalScript.Proofs.LineBreaks
import GraalScript.Proofs.LongestMatch
import GraalScript.Proofs.Multiplicity
import GraalScript.Proofs.NestingLimit
import GraalScript.Proofs.OmittedConversions
import GraalScript.Proofs.OutputFiles
import GraalScript.Proofs.OutputNames
import GraalScript.Proofs.OwnedBlocks
import GraalScript.Proofs.Parser.Course
import GraalScript.Proofs.Parser.ExprView
import GraalScript.Proofs.Parser.Faults
import GraalScript.Proofs.Parser.Formed
import GraalScript.Proofs.Parser.Grammar
import GraalScript.Proofs.Parser.Levels
import GraalScript.Proofs.Parser.Placed
import GraalScript.Proofs.Parser.Spelled
import GraalScript.Proofs.Parser.StmtTakes
import GraalScript.Proofs.Parser.StmtView
import GraalScript.Proofs.Parser.Takes
import GraalScript.Proofs.Parser.Tracks
import GraalScript.Proofs.Parser.View
import GraalScript.Proofs.PoolTexts
import GraalScript.Proofs.Precedence
import GraalScript.Proofs.ReadingPlace
import GraalScript.Proofs.ReadingProgress
import GraalScript.Proofs.RoundTrip
import GraalScript.Proofs.Scope.Actions
import GraalScript.Proofs.Scope.Bound
import GraalScript.Proofs.Scope.Chain
import GraalScript.Proofs.Scope.Collecting
import GraalScript.Proofs.Scope.Extend
import GraalScript.Proofs.Scope.Mirror
import GraalScript.Proofs.Scope.ObjectVars
import GraalScript.Proofs.Scope.Recorded
import GraalScript.Proofs.Scope.Spelled
import GraalScript.Proofs.Scope.Tracking
import GraalScript.Proofs.Scope.Visible
import GraalScript.Proofs.ScopeTree
import GraalScript.Proofs.SourceLines
import GraalScript.Proofs.StringLiterals
import GraalScript.Proofs.StructuredJumps
import GraalScript.Proofs.SwitchLabels
import GraalScript.Proofs.Token.Gap
import GraalScript.Proofs.Token.Prefix
import GraalScript.Proofs.Token.Render
import GraalScript.Proofs.Token.Spelled
import GraalScript.Proofs.Token.Written
import GraalScript.Proofs.TokenFeed
import GraalScript.Proofs.TokenSpans
import GraalScript.Proofs.Tool.Path
import GraalScript.Proofs.Tree.Calls
import GraalScript.Proofs.Tree.Equality
import GraalScript.Proofs.Tree.Formed
import GraalScript.Proofs.Tree.Inlined
import GraalScript.Proofs.Tree.Parts
import GraalScript.Proofs.Tree.Printer
import GraalScript.Proofs.Tree.Ready
import GraalScript.Proofs.Tree.Recast
import GraalScript.Proofs.Tree.Spelled
import GraalScript.Proofs.TreeHeight
import GraalScript.Proofs.UniqueDecoding
import GraalScript.Scope.Basic
import GraalScript.Scope.Fold
import GraalScript.Scope.ObjectVars
import GraalScript.Scope.Resolve
import GraalScript.Session
import GraalScript.Text.Escape
import GraalScript.Text.Invisible
import GraalScript.Text.Source
import GraalScript.Text.Utf8
import GraalScript.Token
import GraalScript.Token.Feed
import GraalScript.Token.Lexer
import GraalScript.Token.Stream
import GraalScript.Tool.Config
import GraalScript.Tool.Disk
import GraalScript.Tool.Host
import GraalScript.Tool.Options
import GraalScript.Tool.Path
import GraalScript.Tool.Run
import GraalScript.Tree.Basic
import GraalScript.Tree.Calls
import GraalScript.Tree.Error
import GraalScript.Tree.Parser.Basic
import GraalScript.Tree.Parser.Expr
import GraalScript.Tree.Parser.Stmt
import GraalScript.Tree.ValueType
