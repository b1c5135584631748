import KnvProto.Node.Ops

/-!
# The pool

`ObjPool` keeps the nodes that have been deleted and hands them out again.
`ReleaseObject` empties a node before it goes to the free list, and `InitNode`
sets it up again; `metas[]` and `child_has_key` are set by neither.

## The model

An object is a node, too. The addresses under which a node knows its children
start anew in each of its lives: what `metas[]` still holds names nodes that are
not there, and what lies at such an address is not known.
-/

namespace KnvProto.KnvNode

/-- `KnvNode()`: a new object. -/
def construct : KnvNode := { tag := 0, type := .string }

/-- `ReleaseObject`, of the object of one node. -/
def releaseNode (n : KnvNode) : KnvNode :=
  { n with
    self := 0
    tag := 0
    val := {}
    key := { n.key with bytes := [] }
    expanded := false
    ht := {}
    subnodeDirty := false
    slots := 0
    metalist := []
    childlist := [] }

mutual

/-- `ReleaseObject`: the objects that a tree leaves for the free list. -/
def releaseObject : KnvNode → List KnvNode
  | ⟨d, ms, cs⟩ => releaseNode ⟨d, ms, cs⟩ :: (releaseKnvNodeList ms ++ releaseKnvNodeList cs)

/-- `ReleaseKnvNodeList`. -/
def releaseKnvNodeList : List KnvNode → List KnvNode
  | [] => []
  | n :: l => releaseObject n ++ releaseKnvNodeList l

end

end KnvProto.KnvNode
