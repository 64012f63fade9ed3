import ResSim.Lib.Loop
import ResSim.Lib.Random
import ResSim.Lib.Digraph
import ResSim.Lib.DepthFirst
import ResSim.Lib.FeedbackArcSet
import ResSim.Lib.Walk
import ResSim.Lib.ShortestPath
import ResSim.Lib.Disjoint
import ResSim.Vcs.Cdg
import ResSim.Vcs.Assign
import ResSim.Vcs.Fas
import ResSim.PortGraph
import ResSim.Trees.ForestPaths
import ResSim.Trees.FwdtableWalk
import ResSim.Trees.Table
import ResSim.Trees.Edst
import ResSim.Trees.Adst
import ResSim.Trees.SpanningTree
import ResSim.Trees.Ttg
import ResSim.Trees.DfrTable
import ResSim.Trees.Deadlock
import ResSim.Trees.DfrResilience
import ResSim.Trees.WalkEnds
import ResSim.Trees.Headerless
import ResSim.Lib.Dict
import ResSim.Lib.Worklist
import ResSim.Lib.Ternary
import ResSim.Plinko.Path
import ResSim.Plinko.Build
import ResSim.Plinko.Forest
import ResSim.Plinko.Search
import ResSim.Plinko.Install
import ResSim.Plinko.Growth
import ResSim.Plinko.Rounds
import ResSim.Plinko.WildTable
import ResSim.Plinko.Tcam
import ResSim.Plinko.StateComputation
import ResSim.Plinko.TcamCheck
import ResSim.Lib.Runs
import ResSim.Plinko.WildGroups
import ResSim.Plinko.Walk
import ResSim.Plinko.VertexBuild
import ResSim.Plinko.VertexSearch
import ResSim.Plinko.VertexRounds
import ResSim.Plinko.VertexWalk
import ResSim.Plinko.Dfr
import ResSim.Plinko.PathCdg
import ResSim.Fcp.Build
import ResSim.Fcp.Route
import ResSim.Fcp.Table
import ResSim.Fcp.Tree
import ResSim.Fcp.Rounds
import ResSim.Fcp.Match
import ResSim.Fcp.Walk
import ResSim.Fcp.Resilience
import ResSim.Lib.MaxMin
import ResSim.Throughput.Flows
import ResSim.Throughput.Fairness
import ResSim.Lib.UnionFind
import ResSim.Lib.Branching
import ResSim.Lib.MinCut
import ResSim.Trees.EdstForest
import ResSim.Trees.EdstEnds
import ResSim.Trees.Alternates
import ResSim.Trees.TcamState
import ResSim.Trees.AdstForest
import ResSim.Trees.AdstConnectivity
import ResSim.Lib.Traverse
import ResSim.Lib.BitVal
import ResSim.Lib.Gather
import ResSim.Lib.Blocks
import ResSim.Lib.StableSort
import ResSim.Lib.BinarySort
import ResSim.Lib.Connected
import ResSim.Trees.ResSort
import ResSim.Trees.RandDag
import ResSim.Trees.TtgLayers
import ResSim.Trees.Selection
import ResSim.Bitweave.Merge
import ResSim.Bitweave.Coverage
import ResSim.Bitweave.Partition
import ResSim.Bitweave.Suri
import ResSim.Bitweave.Weave
import ResSim.Lib.Text
import ResSim.Topo.OutputDevices
import ResSim.Topo.BuildGraph
import ResSim.Topo.Agreement
import ResSim.Topo.Numbering
import ResSim.Lib.Json
import ResSim.Tables.Encoder
import ResSim.Tables.Transfer
import ResSim.Tables.TreeTable
import ResSim.Tables.PlinkoTable
import ResSim.Tables.Lossless
import ResSim.Tables.Builders
import ResSim.Lib.ChooseRatio
import ResSim.Failures.BoundRes
import ResSim.Lib.Cluster
import ResSim.Failures.Correlated
import ResSim.Lib.Lexicographic
import ResSim.Topo.HyperxOpt
import ResSim.Lib.MixedRadix
import ResSim.Lib.Spread
import ResSim.Topo.Generate
import ResSim.Topo.Hyperx
import ResSim.Topo.Factorize
import ResSim.Topo.EgftOpt
import ResSim.Topo.Egft
import ResSim.Topo.EgftBuilt
import ResSim.Lib.NeighbourLists
import ResSim.Topo.Jellyfish
import ResSim.Topo.JellyfishWired
import ResSim.Topo.JellyfishRuns
import ResSim.Plinko.History
import ResSim.Lib.PrefixRules
import ResSim.Bitweave.GetPrefixes
import ResSim.Bitweave.WeightedSuris
import ResSim.Bitweave.FindSolutions
import ResSim.Bitweave.SuriModule
import ResSim.Throughput.PriorityDict
import ResSim.Throughput.PriorityFill
import ResSim.Trees.Serving
import ResSim.Throughput.TopK
import ResSim.Throughput.FlowPaths
import ResSim.Throughput.Pass
import ResSim.Throughput.Totals
import ResSim.Lib.FisherYates
import ResSim.Igraph.Dqueue
import ResSim.Lib.BucketSort
import ResSim.Igraph.EdgeList
import ResSim.Igraph.Edits
import ResSim.Lib.BreadthFirst
import ResSim.Igraph.ShortestPaths
import ResSim.Igraph.PathChoice
import ResSim.Igraph.Bfs
import ResSim.Igraph.BfsChoice
import ResSim.Igraph.Distances
import ResSim.Igraph.Switches
