import IndexAdvice.Text.CharClass
import IndexAdvice.Text.Letter
import IndexAdvice.Text.Case
import IndexAdvice.Sql.Keyword
import IndexAdvice.Sql.Tokens
import IndexAdvice.Naming
import IndexAdvice.Settings
import IndexAdvice.Query
import IndexAdvice.Clause.Span
import IndexAdvice.Clause.Condition
import IndexAdvice.Clause.JoinTarget
import IndexAdvice.Clause.Projection
import IndexAdvice.Parse
import IndexAdvice.JoinGraph
import IndexAdvice.Source.Extract
import IndexAdvice.Files.Listing
import IndexAdvice.Advisor
import IndexAdvice.Report.Document
import IndexAdvice.Report.Script
import IndexAdvice.Report.Page
import IndexAdvice.Report.Console
import IndexAdvice.CommandLine.Outcome
import IndexAdvice.Export
import IndexAdvice.Report.Plain
import IndexAdvice.Main
import IndexAdvice.Proofs.KeyOrder
import IndexAdvice.Proofs.DeclaredColumns
import IndexAdvice.Proofs.AdviceOrigin
import IndexAdvice.Proofs.Soundness
import IndexAdvice.Proofs.PieceEnds
import IndexAdvice.Proofs.Cutting
import IndexAdvice.Proofs.Locating
import IndexAdvice.Proofs.Openings
import IndexAdvice.Proofs.GroupText
import IndexAdvice.Proofs.NestedQueries
import IndexAdvice.Proofs.ShiftedTokens
import IndexAdvice.Proofs.PrintedConditions
import IndexAdvice.Proofs.PrintedTokens
import IndexAdvice.Proofs.ConditionCuts
import IndexAdvice.Proofs.WhereText
import IndexAdvice.Proofs.BooleanStructure
import IndexAdvice.Proofs.Records
import IndexAdvice.Proofs.Parentheses
import IndexAdvice.Proofs.Deduplication
import IndexAdvice.Proofs.FoldedConditions
import IndexAdvice.Proofs.SubjectFolding
import IndexAdvice.Proofs.IndexNames
import IndexAdvice.Proofs.ScriptRuns
import IndexAdvice.Proofs.DialectLimits
import IndexAdvice.Proofs.DialectSyntax
import IndexAdvice.Proofs.RelatedLists
import IndexAdvice.Proofs.AlikeTokens
import IndexAdvice.Proofs.AlikeParts
import IndexAdvice.Proofs.AlikeConditions
import IndexAdvice.Proofs.AlikeLists
import IndexAdvice.Proofs.AlikeSpans
import IndexAdvice.Proofs.AlikeJoins
import IndexAdvice.Proofs.AlikeClauses
import IndexAdvice.Proofs.AlikeKeys
import IndexAdvice.Proofs.Spacing
import IndexAdvice.Proofs.TrimmedTokens
import IndexAdvice.Proofs.AlignedTokens
import IndexAdvice.Proofs.Layout
import IndexAdvice.Proofs.Grafting
import IndexAdvice.Proofs.AlikeGroups
import IndexAdvice.Proofs.NestedText
import IndexAdvice.Proofs.LaterQueries
import IndexAdvice.Proofs.FileIsolation
import IndexAdvice.Proofs.ScriptTokens
import IndexAdvice.Proofs.SourceOrder
import IndexAdvice.Proofs.ConstantText
import IndexAdvice.Proofs.Comparisons
import IndexAdvice.Proofs.PartialConditions
import IndexAdvice.Proofs.LetterCase
import IndexAdvice.Proofs.LowerCase
import IndexAdvice.Proofs.RestatedTokens
import IndexAdvice.Proofs.RestatedConditions
import IndexAdvice.Proofs.RestatedLists
import IndexAdvice.Proofs.RestatedSpans
import IndexAdvice.Proofs.RestatedJoins
import IndexAdvice.Proofs.RestatedClauses
import IndexAdvice.Proofs.WordCase
import IndexAdvice.Proofs.WordsBefore
import IndexAdvice.Proofs.WhereKept
import IndexAdvice.Proofs.WhereFragments
import IndexAdvice.Proofs.CheckedAccess
import IndexAdvice.Proofs.CheckedText
import IndexAdvice.Proofs.CheckedTokens
import IndexAdvice.Proofs.CheckedConditions
import IndexAdvice.Proofs.CheckedSpans
import IndexAdvice.Proofs.CheckedNames
import IndexAdvice.Proofs.CheckedLists
import IndexAdvice.Proofs.CheckedJoins
import IndexAdvice.Proofs.CheckedClauses
import IndexAdvice.Proofs.CheckedNesting
import IndexAdvice.Proofs.CheckedAdvice
import IndexAdvice.Proofs.Totality
import IndexAdvice.Proofs.Coverage
import IndexAdvice.Proofs.Passages
import IndexAdvice.Proofs.Matching
import IndexAdvice.Proofs.UnclosedGroups
import IndexAdvice.Proofs.ScopeAgreement
import IndexAdvice.Proofs.SetOperators
import IndexAdvice.Proofs.JoinConditions
import IndexAdvice.Proofs.OwnQualifiers
import IndexAdvice.Proofs.JoinStatements
import IndexAdvice.Proofs.JoinSymmetry
import IndexAdvice.Proofs.NestedTables
import IndexAdvice.Proofs.CatalogLookup
import IndexAdvice.Proofs.OutputAliases
import IndexAdvice.Proofs.StringLiterals
import IndexAdvice.Proofs.CallLines
import IndexAdvice.Proofs.CommentedCode
import IndexAdvice.Proofs.StructBodies
import IndexAdvice.Proofs.CommentedBodies
import IndexAdvice.Proofs.CallFields
import IndexAdvice.Proofs.GraphEdges
import IndexAdvice.Proofs.GraphClusters
import IndexAdvice.Proofs.GraphDegrees
import IndexAdvice.Proofs.TableNodes
import IndexAdvice.Proofs.ClausePartition
import IndexAdvice.Proofs.PageMarkup
import IndexAdvice.Proofs.TreeEntries
import IndexAdvice.Proofs.WalkOrder
import IndexAdvice.Proofs.FileListing
