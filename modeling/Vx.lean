import Vx.Arc.Count
import Vx.Borrow.Lifetimes
import Vx.Capacity.FoldSound
import Vx.Channel.Delivery
import Vx.Clock.Duration
import Vx.DevicePool.Owned
import Vx.Fleet.Load
import Vx.Fleet.Routing
import Vx.Graphs.Components
import Vx.Graphs.Prim
import Vx.Graphs.ShortestPath
import Vx.Interface.Merge
import Vx.Interface.Outcome
import Vx.Layout.EnumStorage
import Vx.Layout.Laid
import Vx.Layout.TensorSize
import Vx.Mutex.Ordered
import Vx.Names.Resolved
import Vx.Pipeline.Word2
import Vx.Pointer.Sound
import Vx.Prover.Assignment
import Vx.Rand.Rng
import Vx.Remote.GiveBack
import Vx.Remote.Served
import Vx.Remote.Transparent
import Vx.Routes.Matrix
import Vx.Threads.Derived
import Vx.Transport.InStep
import Vx.TupleMatch.Correct
import Vx.Units.Scale
