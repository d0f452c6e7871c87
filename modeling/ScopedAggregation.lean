import ScopedAggregation.Text
import ScopedAggregation.Text.Utf8
import ScopedAggregation.Text.Blank
import ScopedAggregation.Text.Printable
import ScopedAggregation.Text.Quoted
import ScopedAggregation.Number.Binary
import ScopedAggregation.Number.Shortest
import ScopedAggregation.Number.Layout
import ScopedAggregation.Number.Numeral
import ScopedAggregation.Value
import ScopedAggregation.Value.Json
import ScopedAggregation.Value.Plain
import ScopedAggregation.Scope.Fields
import ScopedAggregation.Error
import ScopedAggregation.Scope
import ScopedAggregation.Expr
import ScopedAggregation.Expr.Operators
import ScopedAggregation.Expr.Build
import ScopedAggregation.Expr.Compile
import ScopedAggregation.Formula.Token
import ScopedAggregation.Formula.Parser
import ScopedAggregation.Formula.Template
import ScopedAggregation.Log
import ScopedAggregation.Pipeline.Group
import ScopedAggregation.Pipeline.Project
import ScopedAggregation.Pipeline
import ScopedAggregation.Yaml.Cursor
import ScopedAggregation.Yaml.Token
import ScopedAggregation.Yaml.Scalar
import ScopedAggregation.Yaml.Scan
import ScopedAggregation.Yaml.Tag
import ScopedAggregation.Yaml.Node
import ScopedAggregation.Definition.Quoting
import ScopedAggregation.Definition.Scalar
import ScopedAggregation.Definition.Error
import ScopedAggregation.Definition.Expression
import ScopedAggregation.Definition.Stages
import ScopedAggregation.Definition
import ScopedAggregation.Table
import ScopedAggregation.Time
import ScopedAggregation.Json.Tree
import ScopedAggregation.Store.Error
import ScopedAggregation.Store.Record
import ScopedAggregation.Store
import ScopedAggregation.Log.Format
import ScopedAggregation.Config.Flags
import ScopedAggregation.Config
import ScopedAggregation.Cli.Command
import ScopedAggregation.Cli
import ScopedAggregation.Text.Case
import ScopedAggregation.Path
import ScopedAggregation.Watch.Debouncer
import ScopedAggregation.Watch
import ScopedAggregation.Web.Html
import ScopedAggregation.Web.Wording
import ScopedAggregation.Web.Page
import ScopedAggregation.Program
import ScopedAggregation.Store.Shared
import ScopedAggregation.Metrics
import ScopedAggregation.Http
import ScopedAggregation.Http.Form
import ScopedAggregation.Definition.Failure
import ScopedAggregation.Service
import ScopedAggregation.Service.Body
import ScopedAggregation.Service.Directory
import ScopedAggregation.Service.Answer
import ScopedAggregation.Service.Resource
import ScopedAggregation.Service.Rest
import ScopedAggregation.Service.Rpc
import ScopedAggregation.Main
import ScopedAggregation.Proofs.ExprTree
import ScopedAggregation.Proofs.Success
import ScopedAggregation.Proofs.BuiltExpr
import ScopedAggregation.Proofs.ValueTree
import ScopedAggregation.Proofs.RenderSuccess
import ScopedAggregation.Proofs.NameResolution
import ScopedAggregation.Proofs.ChainResolution
import ScopedAggregation.Proofs.Meaning
import ScopedAggregation.Proofs.MeaningPreservation
import ScopedAggregation.Proofs.ReferenceScope
import ScopedAggregation.Proofs.FormulaGrammar
import ScopedAggregation.Proofs.FormulaSoundness
import ScopedAggregation.Proofs.FormulaCompleteness
import ScopedAggregation.Proofs.Utf8Bytes
import ScopedAggregation.Proofs.WhiteSpace
import ScopedAggregation.Proofs.DecimalNumerals
import ScopedAggregation.Proofs.DocumentNodes
import ScopedAggregation.Proofs.KeyOrder
import ScopedAggregation.Proofs.DocumentRereading
import ScopedAggregation.Proofs.RestrictedRoot
import ScopedAggregation.Proofs.JsonReading
import ScopedAggregation.Proofs.Calendar
import ScopedAggregation.Proofs.TimeStamps
import ScopedAggregation.Proofs.StoredRecords
import ScopedAggregation.Proofs.StoreCalls
import ScopedAggregation.Proofs.StoreConsistency
import ScopedAggregation.Proofs.Interleaving
import ScopedAggregation.Proofs.RevisionTies
import ScopedAggregation.Proofs.CacheFreshness
import ScopedAggregation.Proofs.PipelineRun
import ScopedAggregation.Proofs.GroupOutputs
import ScopedAggregation.Proofs.GroupBuilding
import ScopedAggregation.Proofs.NodeReading
import ScopedAggregation.Proofs.DefinitionReading
import ScopedAggregation.Proofs.OperatorCalls
import ScopedAggregation.Proofs.FormulaNesting
import ScopedAggregation.Proofs.FormulaBraces
import ScopedAggregation.Proofs.QuotedScalar
import ScopedAggregation.Proofs.EmbeddedFormula
import ScopedAggregation.Proofs.WrittenTrees
import ScopedAggregation.Proofs.CompileFailures
import ScopedAggregation.Proofs.DepthGuard
import ScopedAggregation.Proofs.DeclaredInput
import ScopedAggregation.Proofs.RepeatedKeys
import ScopedAggregation.Proofs.AliasData
import ScopedAggregation.Proofs.Interchange
import ScopedAggregation.Proofs.AliasInlining
import ScopedAggregation.Proofs.InlinedDefinitions
import ScopedAggregation.Proofs.DebouncedCallbacks
import ScopedAggregation.Proofs.TemplateParts
import ScopedAggregation.Proofs.LoneFormula
import ScopedAggregation.Proofs.SourceQuoting
import ScopedAggregation.Proofs.PartialScalars
import ScopedAggregation.Proofs.StoreLinearization
import ScopedAggregation.Proofs.DirectoryRemoval
import ScopedAggregation.Proofs.WritableStates
import ScopedAggregation.Proofs.DirectoryLoading
import ScopedAggregation.Proofs.LoadingHistory
import ScopedAggregation.Proofs.DirectoryReconciliation
import ScopedAggregation.Proofs.ProjectionBody
import ScopedAggregation.Proofs.GroupKeyShape
import ScopedAggregation.Proofs.ProjectedNames
import ScopedAggregation.Proofs.NumberGrammar
import ScopedAggregation.Proofs.NumeralReading
import ScopedAggregation.Proofs.NumberKinds
import ScopedAggregation.Proofs.NumeralScanning
import ScopedAggregation.Proofs.ScalarNumbers
import ScopedAggregation.Proofs.LiteralNodes
import ScopedAggregation.Proofs.UnusedScopes
import ScopedAggregation.Proofs.FormulaConstants
import ScopedAggregation.Proofs.FormulaDepth
import ScopedAggregation.Proofs.JsonStrings
import ScopedAggregation.Proofs.EncodedValues
import ScopedAggregation.Proofs.FaithfulEncoding
import ScopedAggregation.Proofs.PlainConversion
import ScopedAggregation.Proofs.TokenSpans
import ScopedAggregation.Proofs.OrderedEntries
import ScopedAggregation.Proofs.SharedRows
import ScopedAggregation.Proofs.FieldSets
