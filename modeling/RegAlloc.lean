import RegAlloc.Allocation.Log
import RegAlloc.Allocation.Procedure
import RegAlloc.Allocation.Program
import RegAlloc.Coloring.Basic
import RegAlloc.Coloring.Reduction
import RegAlloc.Coloring.Selection
import RegAlloc.Coloring.SpillCost
import RegAlloc.Error
import RegAlloc.Flow.Block
import RegAlloc.Flow.Dominators
import RegAlloc.Flow.Graph
import RegAlloc.Flow.Loops
import RegAlloc.Flow.Reads
import RegAlloc.Flow.Scan
import RegAlloc.Flow.SoleDefinition
import RegAlloc.Ids.IdMap
import RegAlloc.Ids.IdSet
import RegAlloc.Instr
import RegAlloc.Interference.Adjacency
import RegAlloc.Interference.Build
import RegAlloc.Interference.Edit
import RegAlloc.Interference.Graph
import RegAlloc.Json
import RegAlloc.Layout.Basic
import RegAlloc.Liveness
import RegAlloc.Progress
import RegAlloc.Proofs.AdjacencyLaws
import RegAlloc.Proofs.BlockPartition
import RegAlloc.Proofs.BuiltGraph
import RegAlloc.Proofs.ColoringCorrectness
import RegAlloc.Proofs.ControlPaths
import RegAlloc.Proofs.ControlSteps
import RegAlloc.Proofs.Degeneracy
import RegAlloc.Proofs.DepthFirstOrder
import RegAlloc.Proofs.Dominance
import RegAlloc.Proofs.DominatorStages
import RegAlloc.Proofs.EditSequences
import RegAlloc.Proofs.FiniteSets
import RegAlloc.Proofs.FlowGraphLaws
import RegAlloc.Proofs.GraphEdits
import RegAlloc.Proofs.GraphSearch
import RegAlloc.Proofs.IndependentProcedures
import RegAlloc.Proofs.InterferenceRelation
import RegAlloc.Proofs.LaterReads
import RegAlloc.Proofs.LeastLiveSets
import RegAlloc.Proofs.LivenessPasses
import RegAlloc.Proofs.LivenessSolution
import RegAlloc.Proofs.LoopNesting
import RegAlloc.Proofs.LowestRegisters
import RegAlloc.Proofs.MalformedPrograms
import RegAlloc.Proofs.MergeClasses
import RegAlloc.Proofs.MergeForest
import RegAlloc.Proofs.MergeQuotient
import RegAlloc.Proofs.NaturalLoops
import RegAlloc.Proofs.NeededValues
import RegAlloc.Proofs.ObjectLayouts
import RegAlloc.Proofs.PlentifulRegisters
import RegAlloc.Proofs.PolicyIndependence
import RegAlloc.Proofs.ProcedureScan
import RegAlloc.Proofs.ProgramRegisters
import RegAlloc.Proofs.ProgramScan
import RegAlloc.Proofs.ReceiverRegister
import RegAlloc.Proofs.ReductionInvariant
import RegAlloc.Proofs.ReductionRounds
import RegAlloc.Proofs.ReductionSteps
import RegAlloc.Proofs.RegionCut
import RegAlloc.Proofs.RetreatingEdges
import RegAlloc.Proofs.SelectionLaws
import RegAlloc.Proofs.SoleDefinitions
import RegAlloc.Proofs.SpillCandidates
import RegAlloc.Proofs.StatementPaths
import RegAlloc.Proofs.SymbolLookups
import RegAlloc.Proofs.UnreachableMembers
import RegAlloc.Settings.Basic
import RegAlloc.Settings.Environment
import RegAlloc.Settings.Json
import RegAlloc.Symbol
