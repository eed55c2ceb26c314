import SatSearch.Main
import SatSearch.Search.Graph
import SatSearch.Search.Tree
import SatSearch.Semantics
import SatSearch.Proofs.LiteralTruth
import SatSearch.Proofs.BranchingLiteral
import SatSearch.Proofs.CandidateMembership
import SatSearch.Proofs.NodeReduction
import SatSearch.Proofs.AcceptingPath
import SatSearch.Proofs.AcceptedInput
import SatSearch.Proofs.SearchRecursion
import SatSearch.Proofs.SearchBudget
import SatSearch.Proofs.Satisfiability
import SatSearch.Proofs.AnswerVerification
import SatSearch.Proofs.CycleCut
import SatSearch.Proofs.FrameChain
import SatSearch.Proofs.PathResidue
import SatSearch.Proofs.BranchingDiscipline
import SatSearch.Proofs.SearchBounds
import SatSearch.Proofs.BudgetTruncation
import SatSearch.Proofs.MatchingSearches
import SatSearch.Proofs.UnusedCandidates
import SatSearch.Proofs.DecimalRoundTrip
import SatSearch.Proofs.TextLines
import SatSearch.Proofs.DimacsRoundTrip
import SatSearch.Proofs.VariableRenaming
import SatSearch.Proofs.RenamedSearches
import SatSearch.Proofs.DimacsGrammar
import SatSearch.Proofs.RandomFormulas
import SatSearch.Proofs.SeededSweep
import SatSearch.Proofs.CensoredSweep
import SatSearch.Proofs.OccurringVariables
import SatSearch.Proofs.WrittenFiles
import SatSearch.Proofs.SolvingCommands
import SatSearch.Proofs.ReportText
import SatSearch.Proofs.TruthfulText
import SatSearch.Proofs.TextCommand
import SatSearch.Proofs.SweepNotices
import SatSearch.Proofs.DrawnCandidates
import SatSearch.Proofs.ExportedInstances
import SatSearch.Proofs.CallCounting
import SatSearch.Proofs.FiniteCandidates
import SatSearch.Proofs.FrequencyCounts
import SatSearch.Proofs.LazyReading
import SatSearch.Proofs.FirstValues
import SatSearch.Proofs.RefusedCandidates
import SatSearch.Proofs.BoundedDraws
import SatSearch.Proofs.DrawOutcomes
import SatSearch.Proofs.DrawingLoops
import SatSearch.Proofs.RangeValues
import SatSearch.Proofs.SummaryExactness
import SatSearch.Proofs.RangeText
import SatSearch.Proofs.ReductionProgress
import SatSearch.Proofs.StrikeMeaning
import SatSearch.Proofs.UnusedWarning
import SatSearch.Proofs.CsvRows
import SatSearch.Proofs.ListenerIndependence
import SatSearch.Proofs.StreamedSweep
