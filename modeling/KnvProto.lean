import KnvProto.Codec.Stream
import KnvProto.Codec.Writer
import KnvProto.Tree.Sizes
import KnvProto.Tree.Index
import KnvProto.Tree.Canonical
import KnvProto.Tree.Cache
import KnvProto.Tree.Compare
import KnvProto.Tree.OwnRequest
import KnvProto.Tree.Reuse
import KnvProto.Tree.Fold
import KnvProto.Tree.ByTag
import KnvProto.Tree.Detached
import KnvProto.Tree.IntFields
import KnvProto.Tree.SetKey
import KnvProto.Tree.Reported
import KnvProto.Tree.EditedBack
import KnvProto.Tree.Merge
import KnvProto.Tree.Merged
import KnvProto.Tree.Remerged
import KnvProto.Tree.Ask
import KnvProto.Tree.Gathering
import KnvProto.Tree.Asked
import KnvProto.Tree.Pruned
import KnvProto.Tree.Queried
import KnvProto.Tree.Served
import KnvProto.Tree.Walked
import KnvProto.Node.Shared
import KnvProto.Node.HtMem
import KnvProto.Node.Lists
import KnvProto.Node.KeyOrder
import KnvProto.Show.Hex
import KnvProto.Memory.Manager
import KnvProto.Memory.Blocks
import KnvProto.Memory.ObjPoolR
import KnvProto.Memory.PoolLists
import KnvProto.Packet.Bounds
import KnvProto.Packet.Reassembly
import KnvProto.Packet.Reach
import KnvProto.Packet.Fits
import KnvProto.Packet.Removal
import KnvProto.Packet.Compat
import KnvProto.Tree.Order
