import PathSieve.Text.Lines
import PathSieve.Text.Units
import PathSieve.Base
import PathSieve.Sieve
import PathSieve.Path.Home
import PathSieve.Path.Separator
import PathSieve.FileSystem.Error
import PathSieve.Walk.Basic
import PathSieve.Walk.Find
import PathSieve.Walk.Table
import PathSieve.Decimal.Binary64
import PathSieve.Decimal.Shortest
import PathSieve.Json.Number
import PathSieve.Json.Parser
import PathSieve.Json.Printer
import PathSieve.Config.Basic
import PathSieve.Environment
import PathSieve.Log
import PathSieve.Report
import PathSieve.FileSystem.Basic
import PathSieve.FileSystem.Operations
import PathSieve.Usage.Scan
import PathSieve.Usage.Suggest
import PathSieve.Usage.Help
import PathSieve.Usage.Invocation
import PathSieve.Cli.Options
import PathSieve.Cli.Run
import PathSieve.Main
import PathSieve.Proofs.DoubleStar
import PathSieve.Proofs.Place
import PathSieve.Proofs.Bases
import PathSieve.Proofs.Tree
import PathSieve.Proofs.Candidates
import PathSieve.Proofs.Runs
import PathSieve.Proofs.Found
import PathSieve.Proofs.Completeness
import PathSieve.Proofs.Exclusion
import PathSieve.Proofs.Growth
import PathSieve.Proofs.Grammar
import PathSieve.Proofs.Reading
import PathSieve.Proofs.Expression
import PathSieve.Proofs.SingleSegment
import PathSieve.Proofs.Climbing
import PathSieve.Proofs.Outermost
import PathSieve.Proofs.Enumeration
import PathSieve.Proofs.NoDuplicates
import PathSieve.Proofs.Overlap
import PathSieve.Proofs.Levels
import PathSieve.Proofs.Failures
import PathSieve.Proofs.Observation
import PathSieve.Proofs.Narrowing
import PathSieve.Proofs.PatternOrder
import PathSieve.Proofs.Utf8
import PathSieve.Proofs.ReadBack
import PathSieve.Proofs.Literal
import PathSieve.Proofs.Following
import PathSieve.Proofs.RealDirectories
import PathSieve.Proofs.Outcomes
import PathSieve.Proofs.Escaping
import PathSieve.Proofs.MatchPrefix
import PathSieve.Proofs.Selection
import PathSieve.Proofs.Lookup
import PathSieve.Proofs.Loading
import PathSieve.Proofs.Tilde
import PathSieve.Proofs.Numerals
import PathSieve.Proofs.Lexemes
import PathSieve.Proofs.Nesting
import PathSieve.Proofs.Rendering
import PathSieve.Proofs.Schema
import PathSieve.Proofs.Making
import PathSieve.Proofs.Creating
import PathSieve.Proofs.Canonical
import PathSieve.Proofs.Grounded
import PathSieve.Proofs.Parents
import PathSieve.Proofs.Refusal
import PathSieve.Proofs.Relocating
import PathSieve.Proofs.Separators
import PathSieve.Proofs.ListingOrder
