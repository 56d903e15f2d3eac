import RidgeWalker.Switch.Framing
import RidgeWalker.Switch.Stealing
import RidgeWalker.Urw.Visits
import RidgeWalker.Urw.InFlight
import RidgeWalker.Ring.Slots
import RidgeWalker.Ring.Termination
import RidgeWalker.Wrs.Sampler
import RidgeWalker.Memory.Lane
import RidgeWalker.Cache.Coherence
import RidgeWalker.Cache.Degrees
import RidgeWalker.Burst.UpdateMerge
import RidgeWalker.Step.DeadEnd
import RidgeWalker.Layout.Hops
import RidgeWalker.Layout.Uniform
import RidgeWalker.Urw.QueryLoader
import RidgeWalker.Urw.Statistic
import RidgeWalker.Urw.RouterState
import RidgeWalker.Rng.Leapfrog
import RidgeWalker.Burst.Commands
import RidgeWalker.Node2vec.Membership
import RidgeWalker.SrcCache.Access
import RidgeWalker.Burst.Units
import RidgeWalker.Wrs.Counting
import RidgeWalker.Step.Loader
import RidgeWalker.Ring.Cursor
import RidgeWalker.Switch.FrameLength
import RidgeWalker.Switch.Signals
import RidgeWalker.Switch.Bubbles
import RidgeWalker.Node2vec.Lanes
import RidgeWalker.Burst.LabelFilter
import RidgeWalker.SrcCache.Coalesce
import RidgeWalker.Host.EdgeList
import RidgeWalker.Host.Derived
import RidgeWalker.Host.Partition
import RidgeWalker.Host.PartitionFunction
import RidgeWalker.Host.Queries
import RidgeWalker.Switch.Fairness
import RidgeWalker.Host.Search
import RidgeWalker.Host.Reorder
import RidgeWalker.Burst.Standstill
import RidgeWalker.Rng.Lanes
import RidgeWalker.Host.TextFile
import RidgeWalker.Host.BinaryFile
import RidgeWalker.Dataflow.Scripts
