import Gvisor.Arch.MmapLayout
import Gvisor.Boot.Compat
import Gvisor.Mm.AioContext
import Gvisor.Mm.AioManager
import Gvisor.Proc.Tasks
import Gvisor.Runsc.Control
import Gvisor.Runsc.Override
import Gvisor.Runsc.Sandbox
import Gvisor.Socket.OwnerMatcher
import Gvisor.Segment.Node
import Gvisor.Segment.Mutate
import Gvisor.Segment.Ops
import Gvisor.Segment.Tree
import Gvisor.Segment.Relabel
import Gvisor.Segment.Heap
import Gvisor.Segment.Rep
import Gvisor.Segment.Nav
import Gvisor.Segment.Invariant
import Gvisor.Segment.Rebalance
import Gvisor.Segment.Path
import Gvisor.Segment.Split
import Gvisor.Segment.Insert
import Gvisor.Segment.Lookup
import Gvisor.Segment.Span
import Gvisor.Segment.Join
import Gvisor.Segment.Merge
import Gvisor.Segment.Borrow
import Gvisor.Segment.Remove
import Gvisor.Segment.Edit
import Gvisor.Segment.Merging
import Gvisor.Segment.Client
import Gvisor.Segment.Checked
