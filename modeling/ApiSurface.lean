import ApiSurface.Comment
import ApiSurface.Config
import ApiSurface.Config.File
import ApiSurface.Diagnostic
import ApiSurface.Document.Basic
import ApiSurface.Document.Decoding
import ApiSurface.Document.Encoding
import ApiSurface.Extraction
import ApiSurface.Extraction.ClassBody
import ApiSurface.Extraction.Describe
import ApiSurface.Extraction.Discovery
import ApiSurface.Extraction.Externals
import ApiSurface.Extraction.Graph
import ApiSurface.Extraction.Identifiers
import ApiSurface.Extraction.Locations
import ApiSurface.Extraction.Symbols
import ApiSurface.Extraction.Types
import ApiSurface.FileSystem
import ApiSurface.FileSystem.DirectoryTree
import ApiSurface.Grammar.ClassBody
import ApiSurface.Grammar.Declarations
import ApiSurface.Grammar.Expressions
import ApiSurface.Grammar.File
import ApiSurface.Grammar.Parse
import ApiSurface.Grammar.Productions
import ApiSurface.Grammar.Signatures
import ApiSurface.Grammar.Skipping
import ApiSurface.Grammar.Statements
import ApiSurface.Grammar.Types
import ApiSurface.Inference
import ApiSurface.Json
import ApiSurface.Json.Number
import ApiSurface.Json.Printer
import ApiSurface.Json.Reader
import ApiSurface.Json.Record
import ApiSurface.Number.Literal
import ApiSurface.Number.Rounding
import ApiSurface.Number.Shortest
import ApiSurface.Package.Manifest
import ApiSurface.Package.Resolution
import ApiSurface.Package.Specifier
import ApiSurface.Path
import ApiSurface.Program
import ApiSurface.Program.Binding
import ApiSurface.Program.Exports
import ApiSurface.Program.Loaded
import ApiSurface.Program.Symbol
import ApiSurface.Proofs.Asking
import ApiSurface.Proofs.ClosedGraph
import ApiSurface.Proofs.DescribedSymbols
import ApiSurface.Proofs.DescribedTypes
import ApiSurface.Proofs.ExportTables
import ApiSurface.Proofs.FreeNames
import ApiSurface.Proofs.GroundedNames
import ApiSurface.Proofs.Homes
import ApiSurface.Proofs.Noting
import ApiSurface.Proofs.NotingSteps
import ApiSurface.Proofs.OccurringIds
import ApiSurface.Proofs.Tables
import ApiSurface.Proofs.UniqueNames
import ApiSurface.Span
import ApiSurface.SymbolId
import ApiSurface.Syntax.Name
import ApiSurface.Syntax.SourceFile
import ApiSurface.Syntax.Tree
import ApiSurface.Syntax.WrittenTypes
import ApiSurface.Table
import ApiSurface.Text.Blank
import ApiSurface.Text.Bytes
import ApiSurface.Token
import ApiSurface.Token.Lexeme
import ApiSurface.Token.Lexer
import ApiSurface.Proofs.Descriptions
import ApiSurface.Proofs.BestExports
import ApiSurface.Proofs.BoundSites
import ApiSurface.Proofs.WalkEnds
import ApiSurface.Proofs.DeclaredNames
import ApiSurface.Proofs.DeclaringProductions
import ApiSurface.Proofs.ImportTypes
import ApiSurface.Proofs.ParsedFiles
import ApiSurface.Proofs.SymbolNames
import ApiSurface.Proofs.Searches
import ApiSurface.Proofs.BoundSymbols
import ApiSurface.Proofs.ResolvedNames
import ApiSurface.Proofs.NameShapes
import ApiSurface.Proofs.LexicalDeclarations
import ApiSurface.Proofs.DeclarationForest
import ApiSurface.Proofs.ExportRules
import ApiSurface.Proofs.ExactMentions
import ApiSurface.Proofs.ParserProgress
import ApiSurface.Proofs.LosslessScanning
import ApiSurface.Proofs.ReadRecords
import ApiSurface.Proofs.ReadTypes
import ApiSurface.Proofs.BoundNames
import ApiSurface.Proofs.MergedDeclarations
import ApiSurface.Proofs.MergingBlocks
import ApiSurface.Proofs.ReadDocuments
import ApiSurface.Proofs.SameNames
import ApiSurface.Proofs.Speculation
import ApiSurface.Proofs.ImportGraph
import ApiSurface.Proofs.EnumMembers
import ApiSurface.Proofs.DeclaredSymbols
import ApiSurface.Proofs.PartitionedDeclarations
import ApiSurface.Proofs.DeclaredKinds
import ApiSurface.Proofs.ParsedTypeTerms
import ApiSurface.Proofs.NamingOrder
import ApiSurface.Proofs.TablesComputedOnce
import ApiSurface.Proofs.LineEndingsParsed
import ApiSurface.Proofs.DocumentedNodes
import ApiSurface.Proofs.ClassOverloads
import ApiSurface.Proofs.PrivateMembers
import ApiSurface.Proofs.BoundedNesting
import ApiSurface.Proofs.EnumValues
import ApiSurface.Proofs.FunctionBodies
import ApiSurface.Proofs.OptionalTypes
import ApiSurface.Proofs.ExternalLinks
import ApiSurface.Proofs.StringLiterals
import ApiSurface.Proofs.StringLines
import ApiSurface.Proofs.NumberLiterals
import ApiSurface.Proofs.DepthLimit
import ApiSurface.Proofs.ShadowedImports
import ApiSurface.Proofs.SharedExports
import ApiSurface.Proofs.WidenedTypes
import ApiSurface.Proofs.DefaultExpressions
import ApiSurface.Proofs.BalancedScopes
import ApiSurface.Proofs.NormalPaths
