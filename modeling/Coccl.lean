import Coccl.Tuning.LinearModel
import Coccl.Tuning.Profiling
import Coccl.Tuning.SampleSizes
import Coccl.Tuning.Topology
import Coccl.Compression.ConfigReader
import Coccl.Pipeline.FramesMatch
import Coccl.Pipeline.Overlapped
import Coccl.Pipeline.Registry
import Coccl.Pipeline.Resources
import Coccl.Pipeline.Slicing
import Coccl.Collectives.Agreement
import Coccl.Collectives.NodeSplit
import Coccl.Memory.Usable
import Coccl.Runtime.GroupDepth
import Coccl.Runtime.Lifetime
import Coccl.Runtime.SendRecvBatch
import Coccl.Training.DetectSound
import Coccl.Training.Renaming
import Coccl.Training.SizedRoles
import Coccl.Device.LayoutExact
import Coccl.Device.ReduceExact
import Coccl.Plugins.TacoSafe
import Coccl.Plugins.ZfpExchange
