import ViEqui.Lib.AssocMap
import ViEqui.Lib.Precedence
import ViEqui.Lib.Exchange
import ViEqui.Lib.Passing
import ViEqui.Lib.Descent
import ViEqui.Lib.Paired
import ViEqui.Event
import ViEqui.Formula
import ViEqui.FormulaReduce
import ViEqui.FormulaEvaluation
import ViEqui.Accesses
import ViEqui.RmwPrediction
import ViEqui.Container
import ViEqui.Sequence
import ViEqui.EventSequence
import ViEqui.Replay
import ViEqui.Adjustment
import ViEqui.Backseq
import ViEqui.Lead
import ViEqui.Builder
import ViEqui.Union
import ViEqui.ViewEquality
import ViEqui.ConflictSearch
import ViEqui.Duplicates
import ViEqui.UnionCalls
import ViEqui.PrefixAnalysis
import ViEqui.Explored
import ViEqui.Coverage
import ViEqui.CausalOrder
import ViEqui.Merge
import ViEqui.RmwAtomic
import ViEqui.Analysis
import ViEqui.Schedule
import ViEqui.Interpreter
import ViEqui.Lib.OrderedMap
import ViEqui.WorkStealing
import ViEqui.WorkItems
import ViEqui.Execution
import ViEqui.Operations
import ViEqui.ThreadOrder
import ViEqui.SequenceValues
import ViEqui.ViewAdjust
import ViEqui.BackseqSource
import ViEqui.BackseqReplay
import ViEqui.LeadSuffix
import ViEqui.Resolution
import ViEqui.Termination
import ViEqui.Lib.SwapRemove
import ViEqui.RfscTrace
import ViEqui.ComputePrefixes
import ViEqui.Lib.VectorClock
import ViEqui.SaturatedGraph
import ViEqui.ForcedOrder
import ViEqui.GraphEdges
import ViEqui.GraphBuild
import ViEqui.SaturationInvariant
import ViEqui.Saturation
import ViEqui.GraphSession
import ViEqui.Lib.PostOrder
import ViEqui.ReverseSaturation
import ViEqui.IncrementalSaturation
import ViEqui.Reachable
import ViEqui.CoveredValues
import ViEqui.EventTable
import ViEqui.ForwardLeads
import ViEqui.WitnessLoop
import ViEqui.CompareExchange
import ViEqui.Independence
import ViEqui.ScheduleIndependence
import ViEqui.Gen.VectorRefinement
import ViEqui.Gen.MapRefinement
import ViEqui.Tso.RaceDetect
import ViEqui.Tso.Observers
import ViEqui.Tso.Reexecution
import ViEqui.Tso.SleepScan
import ViEqui.Tso.SleepSets
import ViEqui.Lib.Attempts
import ViEqui.Tso.HasCycle
import ViEqui.Tso.Robustness
import ViEqui.Lib.WeakSearch
import ViEqui.RfscUnfolding
import ViEqui.RfscLeaf
import ViEqui.Lib.Marking
import ViEqui.RfscCausalPast
import ViEqui.RfscSiblings
import ViEqui.RfscExploration
import ViEqui.Lib.SortedWindow
import ViEqui.RfscClocks
import ViEqui.RfscWindow
import ViEqui.Power.PropSearch
import ViEqui.Power.Axioms
import ViEqui.Power.Commit
import ViEqui.Clocks.VClockInt
import ViEqui.Clocks.VClockMap
import ViEqui.Support.VecSetRun
import ViEqui.Support.CPid
import ViEqui.Smt.Encoding
import ViEqui.Smt.GetModel
import ViEqui.Power.Registration
import ViEqui.Clocks.FBVRun
import ViEqui.Power.ErrorSearch
import ViEqui.Power.FenceEdges
import ViEqui.Power.Pending
import ViEqui.Smt.Printing
import ViEqui.Support.FrontierFilter
import ViEqui.WeakEquivalence
import ViEqui.Buffered.TSO
