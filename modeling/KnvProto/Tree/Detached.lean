import KnvProto.Tree.Duplicate

/-!
# Detached nodes

What becomes of a tree after `Detach` has taken a node out of it, while functions are run on the tree and on the node.

`DetachChild` takes the node out of its parent's list and index, and leaves the node's `parent` as it is. So whatever
the node has to tell goes to the old parent, until the node is inserted into another tree.

## The model

The tree and the node are the two parts of a state, and `home` is where `parent` of the node leads: the addresses of the
nodes from the root of the tree to the old parent. A message finds the old parent at that place, or the old parent has
been released, and then nothing is said of what the message does.
-/

namespace KnvProto

open PathEdit

namespace KnvNode

/-- `DetachChild`. -/
def detachChild (n c : KnvNode) : Out :=
  let offset := if 0 ≤ n.evalSz then -c.evaluateSize.evalSz else 0
  let n := { n with
    ht := n.ht.remove c.self c.tag c.key.bytes
    childlist := n.childlist.eraseP fun x => x.self = c.self }
  n.finish offset

end KnvNode

open KnvNode

namespace KnvNode

end KnvNode

namespace KnvNode

/-! ### Messages that change nothing -/

variable {p n : KnvNode} {a : ℕ} {ev : Ev} {msgs : List Ev}

/-- A node that is put back where it is. -/
theorem setSlot_same {c : KnvNode} {s : Slot} (h : n.slot s = some c) : n.setSlot s c = n := by
  obtain ⟨d, ms, cs⟩ := n
  cases s with
  | ofMeta i =>
    obtain ⟨hlt, rfl⟩ := List.getElem?_eq_some_iff.mp h
    simp only [setSlot_ofMeta, List.set_getElem_self]
  | ofChild i =>
    obtain ⟨hlt, rfl⟩ := List.getElem?_eq_some_iff.mp h
    simp only [setSlot_ofChild, List.set_getElem_self]

end KnvNode

end KnvProto
