import SheetTemplate.Text
import SheetTemplate.SortedMap
import SheetTemplate.Address
import SheetTemplate.Binary64
import SheetTemplate.Decimal
import SheetTemplate.Json
import SheetTemplate.Json.Numeral
import SheetTemplate.Json.Document
import SheetTemplate.Value
import SheetTemplate.Path
import SheetTemplate.Leaves
import SheetTemplate.Marker
import SheetTemplate.Resolution
import SheetTemplate.Grid
import SheetTemplate.RowAction
import SheetTemplate.Formula
import SheetTemplate.Formula.Rebase
import SheetTemplate.Plan
import SheetTemplate.Error
import SheetTemplate.Block
import SheetTemplate.Repetition
import SheetTemplate.Layout
import SheetTemplate.Template
import SheetTemplate.Template.Reading
import SheetTemplate.Substitution
import SheetTemplate.Plan.Written
import SheetTemplate.Plan.Rendering
import SheetTemplate.Compile
import SheetTemplate.Proofs.Bands
import SheetTemplate.Proofs.Walk
import SheetTemplate.Proofs.Placement
import SheetTemplate.Proofs.MarkerScan
import SheetTemplate.Proofs.MarkerGrammar
import SheetTemplate.Proofs.MarkerRewriting
import SheetTemplate.Proofs.OutputRows
import SheetTemplate.Proofs.OutputTexts
import SheetTemplate.Proofs.FormulaScan
import SheetTemplate.Proofs.FormulaSteps
import SheetTemplate.Proofs.Runs
import SheetTemplate.Proofs.LocalCopies
import SheetTemplate.Proofs.RangeGrowth
import SheetTemplate.Proofs.ShiftedReferences
import SheetTemplate.Proofs.ForeignWords
import SheetTemplate.Proofs.FollowedRows
import SheetTemplate.Proofs.Renumbering
import SheetTemplate.Proofs.RewrittenText
import SheetTemplate.Proofs.MarkersInFormulas
import SheetTemplate.Proofs.Spellings
import SheetTemplate.Proofs.CellContents
import SheetTemplate.Proofs.GuardedTexts
import SheetTemplate.Proofs.GuardedCell
import SheetTemplate.Proofs.PayloadLeaves
import SheetTemplate.Proofs.ConditionBeforeFormula
import SheetTemplate.Proofs.WholeMarkers
import SheetTemplate.Proofs.SplicedTexts
import SheetTemplate.Proofs.CallablesInText
import SheetTemplate.Proofs.ListPaths
import SheetTemplate.Proofs.PathResolution
import SheetTemplate.Proofs.LoneRow
import SheetTemplate.Proofs.RowCount
import SheetTemplate.Proofs.RowLimits
import SheetTemplate.Proofs.KeysBelow
import SheetTemplate.Proofs.StraightPaths
import SheetTemplate.Proofs.FirstElements
import SheetTemplate.Proofs.ResolvedPaths
import SheetTemplate.Proofs.ResolvedTexts
import SheetTemplate.Proofs.MergePlacement
import SheetTemplate.Proofs.DisjointMerges
import SheetTemplate.Proofs.CopiedLooks
import SheetTemplate.Proofs.CopyRuns
import SheetTemplate.Proofs.LeafPaths
import SheetTemplate.Proofs.CellShapes
import SheetTemplate.Proofs.BlockShifts
import SheetTemplate.Proofs.WholeBlocks
import SheetTemplate.Proofs.RenderedCalls
import SheetTemplate.Proofs.MergeOrder
import SheetTemplate.Proofs.WrittenDocuments
import SheetTemplate.Proofs.TemplateTexts
import SheetTemplate.Proofs.CommutingAdvances
import SheetTemplate.Proofs.PathPositions
import SheetTemplate.Proofs.PathSearch
import SheetTemplate.Proofs.SiblingCounts
