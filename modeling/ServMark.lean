import ServMark.Single
import ServMark.Convergence
import ServMark.Descriptors
import ServMark.Throughput
import ServMark.Comparison
import ServMark.Weights
import ServMark.ScoreCells
import ServMark.Overrides
import ServMark.Config
import ServMark.Pinning
import ServMark.NumaPolicy
import ServMark.CommandLine
import ServMark.Comments
import ServMark.Reference
import ServMark.Provenance
import ServMark.SyncMpmc
import ServMark.MpmcCount
import ServMark.IpcPipe
import ServMark.NetSockets
import ServMark.NetUdp
import ServMark.PipeSwitch
import ServMark.FutexSwitch
import ServMark.SyncSemaphore
import ServMark.IntHash
import ServMark.Frequency
import ServMark.Bootstrap
import ServMark.FalseDiscovery
import ServMark.MannWhitney
import ServMark.Welch
import ServMark.BetaInc
import ServMark.Agreement
import ServMark.IntSort
import ServMark.IntParse
import ServMark.PointerChase
import ServMark.SystemProbe
import ServMark.SystemNodes
import ServMark.NumaCount
import ServMark.OutlierPeeling
import ServMark.AndersonDarling
import ServMark.PairSort
import ServMark.NumaBandwidth
import ServMark.RayTriangle
import ServMark.Sieve
import ServMark.ReferencePasses
import ServMark.FpFft
import ServMark.SyncLocks
import ServMark.MemStream
import ServMark.FpKernels
import ServMark.LogSearch
import ServMark.ResultLines
import ServMark.RunNumber
import ServMark.OutputFiles
import ServMark.Listing
import ServMark.NetTcp
import ServMark.CpuModel
import ServMark.Invariance
import ServMark.NumaDistances
import ServMark.ValidateReport
import ServMark.Normality
import ServMark.FsMeta
