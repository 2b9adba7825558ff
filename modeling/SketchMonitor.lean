import SketchMonitor.CString
import SketchMonitor.Runs
import SketchMonitor.Lockstep
import SketchMonitor.Components
import SketchMonitor.FiniteSums
import SketchMonitor.Generator
import SketchMonitor.Param
import SketchMonitor.HeavyPart
import SketchMonitor.LightPart
import SketchMonitor.ElasticSketch
import SketchMonitor.GuardCounter
import SketchMonitor.ReferenceBucket
import SketchMonitor.PacketMass
import SketchMonitor.Accuracy
import SketchMonitor.EMFSD
import SketchMonitor.Measurement
import SketchMonitor.Interleaving
import SketchMonitor.ProcessData
import SketchMonitor.ReportTotals
import SketchMonitor.WeightAccounting
import SketchMonitor.BucketIsolation
import SketchMonitor.ConvexTerms
import SketchMonitor.ReportEntropy
import SketchMonitor.Cardinality
import SketchMonitor.Distribution
import SketchMonitor.Aggregation
import SketchMonitor.JsonText
import SketchMonitor.WriteDist
import SketchMonitor.WriteHeavy
import SketchMonitor.Report
import SketchMonitor.ReportCapacity
import SketchMonitor.Framing
import SketchMonitor.RecieveSketch
import SketchMonitor.ReceiveLoop
import SketchMonitor.Repository
import SketchMonitor.FlowIdentity
import SketchMonitor.BetaGenerator
import SketchMonitor.Combinations
import SketchMonitor.PoissonMixture
import SketchMonitor.EMEpochs
import SketchMonitor.EMFit
import SketchMonitor.HeavyHitters
import SketchMonitor.MergeLoops
import SketchMonitor.PacketHandler
import SketchMonitor.Compression
import SketchMonitor.Sliding
import SketchMonitor.CuckooHashing
import SketchMonitor.CuckooInsert
import SketchMonitor.BinaryPolynomials
import SketchMonitor.GaloisField
import SketchMonitor.FieldLaws
import SketchMonitor.Mangler
import SketchMonitor.Equidistribution
import SketchMonitor.KeyDistribution
import SketchMonitor.FlowRuns
import SketchMonitor.SizeDistribution
import SketchMonitor.PoolCompletion
import SketchMonitor.DeviceDelivery
import SketchMonitor.ServerThreads
