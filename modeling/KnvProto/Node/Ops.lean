import KnvProto.Node.Edit

/-!
# Metas, keys and children

Lookups, `SetMeta`, `SetKey` and the removal of metas, the constructors `New` and
`NewTree`, and the insertion and removal of children. `Op` collects the public
functions that act on a node of a tree, and `Op.runAt` runs one at a path.
-/

namespace KnvProto

open PathEdit

namespace KnvNode

/-! ### Metas and keys -/

/-- The node `metas[tag]` points to. -/
def metaAt (n : KnvNode) (tag : UInt32) : Option KnvNode :=
  if n.metalist.isEmpty then none else (n.metas tag).bind fun a => n.metalist.find? fun m => m.self = a

/-- `GetMeta`: the expanded node, and the meta. -/
def getMeta (pl : Place) (tag : UInt32) (n : KnvNode) : KnvNode × Option KnvNode :=
  if !n.isValid || ucMaxMetaNum < tag then (n, none)
  else
    let n := n.innerExpand pl.parentKeyed false
    (n, n.metaAt tag)

/-- The branch of `SetMeta` for a tag that has no meta yet: a key goes to the front. -/
def addMetaNode (n : KnvNode) (tag : UInt32) (type : PbType) (data : Option PbVal) : KnvNode :=
  let m := (initNode tag type data true 0 true).at' n.slots
  let metas := if n.metalist.isEmpty then fun _ => none else n.metas
  { n with
    metalist := if tag = 1 then m :: n.metalist else n.metalist ++ [m]
    metas := fun t => if t = tag then some m.self else metas t
    slots := n.slots + 1 }

/-- The branch of `SetMeta` for a meta that exists: what becomes of the meta. -/
def overwrite (m : KnvNode) (tag : UInt32) (type : PbType) (data : Option PbVal) (isKey : Bool) : KnvNode :=
  let val := match data with
    | some v => v.pick type
    | none => {}
  let m := { m with type := type, val := val }
  -- expanded data are no longer up to date
  let m := if m.expanded then { m with metalist := [], childlist := [], expanded := isKey } else m
  { m with
    evalValSz := if type = .string then val.str.length else 0
    evalSz := pbEvalFieldLength tag type val }

/-- Replace the meta at an address. -/
def setMetaNode (n : KnvNode) (m : KnvNode) : KnvNode :=
  { n with metalist := n.metalist.map fun x => if x.self = m.self then m else x }

/-- What a function that changed the size of a node by `offset` does at its end. -/
def finish (n : KnvNode) (offset : ℤ) : Out :=
  let (n, offset) := if 0 ≤ n.evalSz then n.updateEvalSz offset else (n, 0)
  ⟨n.setValueDirty, [updateParent offset], .ok 0⟩

/-- `SetMeta(tag, type, data, own_buf, update_parent)`. -/
def setMetaInner (tag : UInt32) (type : PbType) (data : Option PbVal) (updateParent : Bool) (pl : Place)
    (n : KnvNode) : Out :=
  if !n.isValid then n.fail (-1) "Node is not initialized"
  else if n.type ≠ .string then n.fail (-2) "Meta not supported for non-message"
  else if ucMaxMetaNum < tag then n.fail (-3) "Tag is out of range"
  else
    let n := n.innerExpand pl.parentKeyed false
    let old := n.metaAt tag
    let oldSz := match old with
      | some m => m.evaluateSize.evalSz
      | none => 0
    let val := match data with
      | some v => v.pick type
      | none => {}
    let newSz : ℤ := pbEvalFieldLength tag type val
    let n := match old with
      | some m => n.setMetaNode (m.overwrite tag type data (!n.noKey && tag == 1))
      | none => n.addMetaNode tag type data
    -- internal call, no need to set dirty and update parent status
    if !updateParent then ⟨{ n with evalValSz := n.evalValSz + (newSz - oldSz) }, [], .ok 0⟩
    else n.finish (newSz - oldSz)

/-- `InnerRemoveMeta`. -/
def innerRemoveMeta (tag : UInt32) (pl : Place) (n : KnvNode) : Out :=
  if !n.isValid then n.fail (-1) "Node is not initialized"
  else if ucMaxMetaNum < tag then n.fail (-2) "Tag is out of range"
  else
    let n := n.innerExpand pl.parentKeyed false
    match n.metaAt tag with
    | none => ⟨n, [], .ok 0⟩
    | some m =>
      let n := { n with
        metalist := n.metalist.eraseP fun x => x.self = m.self
        metas := fun t => if t = tag then none else n.metas t }
      n.finish (-m.evaluateSize.evalSz)

/-- `SetKey`: the node leaves the parent's index under the old key and is put back under the new one. -/
def setKey (ktype : PbType) (kval : Option PbVal) (pl : Place) (n : KnvNode) : Out :=
  let out := [Ev.htRemove n.tag n.key.bytes]
  let n := { n with key := KnvKey.init ktype kval }
  let (o, ret) := if n.key.bytes != [] then (n.setMetaInner 1 ktype (some n.key.getValue) true pl, -2)
    else (n.innerRemoveMeta 1 pl, -3)
  let back := [Ev.htPut o.node.tag o.node.key.bytes]
  match o.ret with
  | .error e => ⟨o.node, out ++ o.msgs ++ back, .error ⟨ret, e.errmsg⟩⟩
  | .ok _ => ⟨{ o.node with noKey := false }, out ++ o.msgs ++ back, .ok 0⟩

/-- `SetMeta(tag, type, data)`. -/
def setMeta (tag : UInt32) (type : PbType) (data : Option PbVal) (pl : Place) (n : KnvNode) : Out :=
  if !n.noKey && tag == 1 then n.setKey type data pl else n.setMetaInner tag type data true pl

/-- `RemoveMeta`. -/
def removeMeta (tag : UInt32) (pl : Place) (n : KnvNode) : Out :=
  if tag = 1 then n.setKey n.key.type none pl else n.innerRemoveMeta tag pl

/-! ### Constructors -/

/-- `New(tag, type, keytype, key, val)`. -/
def new (tag : UInt32) (type keytype : PbType) (key val : Option PbVal) : Except KnvErr KnvNode :=
  if tag = 0 then .error ⟨-1, "Invalid tag argument"⟩
  else
    let n := initNode tag type val
    match key with
    | none => .ok n
    | some k =>
      let n := { n with key := KnvKey.init keytype (some k) }
      if n.key.bytes = [] then .ok n
      else
        let o := n.setMetaInner 1 keytype (some n.key.getValue) true {}
        match o.ret with
        | .error e => .error e
        | .ok _ => .ok o.node

/-- `New(data)`: from the bytes of a field. -/
def newFromBytes (bs : Bytes) : Except KnvErr KnvNode :=
  match pbBegin bs with
  | none => .error ⟨-1, "Invalid bin format"⟩
  | some (f, rest) => .ok (initNode f.tag f.type (some f.val) true (bs.length - rest.length))

/-- `NewTree`. -/
def newTree (tag : UInt32) (key : Option KnvKey := none) : Except KnvErr KnvNode :=
  match key with
  | some k => new tag .string k.type (some k.getValue) none
  | none => new tag .string .string none none

/-! ### Children -/

/-- `INSERT_CHILD`. -/
def linkChild (n : KnvNode) (child : KnvNode) (atTail : Bool) : KnvNode :=
  let child := child.at' n.slots
  let n := { n with
    childlist := if atTail then n.childlist ++ [child] else child :: n.childlist
    slots := n.slots + 1 }
  { n with
    ht := n.ht.put n.look child.self
    childHasKey := n.childHasKey || child.key.bytes != [] }

/-- `InnerInsertChild`: without the ownership of the child, of a duplicate of it. -/
def innerInsertChild (child : KnvNode) (takeOwnership updateParent atTail : Bool) (n : KnvNode) : Out :=
  match if takeOwnership then .ok child else child.innerDuplicate (!updateParent) with
  | .error _ => n.fail (-1) "Out of memory"
  | .ok child =>
    let child := if !updateParent || 0 ≤ n.evalSz then child.evaluateSize else child
    let n := n.linkChild child atTail
    -- internal call, no need to set dirty and update parent status
    if !updateParent then ⟨{ n with evalValSz := n.evalValSz + child.evalSz }, [], .ok 0⟩
    else n.finish child.evalSz

/-- `InsertChild(child, take_ownership, own_buf, at_tail)`. -/
def insertChild (child : KnvNode) (takeOwnership atTail : Bool) (pl : Place) (n : KnvNode) : Out :=
  if !n.isValid then n.fail (-2) "invalid node"
  else if n.type ≠ .string then n.fail (-3) "leaf cannot have child"
  else innerInsertChild child takeOwnership true atTail (n.innerExpand pl.parentKeyed false)

/-- A new child, made by `New` and linked at the tail; the error is that of `New`. -/
def insertNew (child : Except KnvErr KnvNode) (pl : Place) (n : KnvNode) : Out :=
  match child with
  | .error e => n.fail e.ret e.errmsg
  | .ok c => insertChild c true true pl n

/-- `InsertSubNode`. -/
def insertSubNode (tag : UInt32) (key : Option KnvKey) (pl : Place) (n : KnvNode) : Out :=
  n.insertNew (newTree tag key) pl

/-- `InsertIntLeaf`. -/
def insertIntLeaf (tag : UInt32) (v : UInt64) (pl : Place) (n : KnvNode) : Out :=
  n.insertNew (new tag .varint .string none (some { i64 := v })) pl

/-- `InsertStrLeaf`. -/
def insertStrLeaf (tag : UInt32) (s : Bytes) (pl : Place) (n : KnvNode) : Out :=
  n.insertNew (new tag .string .string none (some { str := s })) pl

/-- `FindChild`: the expanded node, and the child's address. -/
def findChild (t : UInt32) (k : Bytes) (pl : Place) (n : KnvNode) : KnvNode × Option ℕ :=
  if !n.isValid then (n, none)
  else
    let n := n.innerExpand pl.parentKeyed false
    (n, if n.childNum ≤ 0 then none else n.ht.get n.look t k)

/-- `FindChildByTag`: the expanded node, and the child's address. -/
def findChildByTag (t : UInt32) (pl : Place) (n : KnvNode) : KnvNode × Option ℕ :=
  if !n.isValid then (n, none)
  else
    let n := n.innerExpand pl.parentKeyed false
    (n, if n.childNum ≤ 0 then none
      else if n.childHasKey then (n.childlist.find? fun c => c.tag = t).map (·.self)
      else n.ht.get n.look t [])

/-- `RemoveChildByPos`, of the child at an address: `pos` is its bucket, if the caller has looked it up. -/
def removeChildByPos (a : ℕ) (pos : Option ℕ) (n : KnvNode) : Out :=
  match n.childlist.find? fun c => c.self = a with
  | none => ⟨n, [], .ok 0⟩
  | some c =>
    let offset := if 0 ≤ n.evalSz then -c.evaluateSize.evalSz else 0
    let ht := match pos with
      | some hi => n.ht.removePos a hi
      | none => n.ht.remove a c.tag c.key.bytes
    let n := { n with ht := ht, childlist := n.childlist.eraseP fun c => c.self = a }
    let o := n.finish offset
    ⟨o.node, o.msgs, .ok 1⟩

/-- `RemoveChild`. -/
def removeChild (t : UInt32) (k : Bytes) (pl : Place) (n : KnvNode) : Out :=
  let (n, found) := n.findChild t k pl
  match found with
  | none => ⟨n, [], .ok 0⟩
  | some a => n.removeChildByPos a (some (getKeyhash t k n.ht.sz))

/-- `RemoveChildrenByTag`: the count of children removed. -/
def removeChildrenByTag (t : UInt32) (pl : Place) (n : KnvNode) : Out :=
  if !n.isValid then n.fail (-1) "Tree is invalid"
  else
    let n := n.innerExpand pl.parentKeyed false
    let matched := n.childlist.filter fun c => c.tag = t
    if matched.isEmpty then ⟨n, [], .ok 0⟩
    else
      let offset := if 0 ≤ n.evalSz then -(matched.map (·.evaluateSize.evalSz)).sum else 0
      let n := { n with
        ht := matched.foldl (fun ht (c : KnvNode) => ht.remove c.self c.tag c.key.bytes) n.ht
        childlist := n.childlist.filter fun c => c.tag ≠ t }
      let o := n.finish offset
      ⟨o.node, o.msgs, .ok matched.length⟩

/-! ### Runs -/

/-- `GetValue`, as an operation on a tree. -/
def getValueOp (n : KnvNode) : Out :=
  ⟨n.getValue.1, [], n.getValue.2.map fun _ => 0⟩

/-- `Expand`, which every lookup does first. -/
def expandOp (pl : Place) (n : KnvNode) : Out :=
  match n.expand pl.parentKeyed with
  | .error e => ⟨n, [], .error e⟩
  | .ok n => ⟨n, [], .ok 0⟩

end KnvNode

/-- The public functions that act on a node of a tree. -/
inductive Op where
  /-- `FindChild`, `FindChildByTag`, `GetFirstChild`, `GetMeta`, ...: the lookups. -/
  | lookup
  /-- `InsertChild`, with the tree to insert; `InsertSubNode` and the like make it with `New`. -/
  | insertChild (child : KnvNode) (takeOwnership atTail : Bool)
  /-- `RemoveChild`. -/
  | removeChild (t : UInt32) (k : Bytes)
  /-- `RemoveChildrenByTag`. -/
  | removeChildrenByTag (t : UInt32)
  /-- `SetTag`. -/
  | setTag (t : UInt32)
  /-- `SetMeta`, `SetMetaInt`, `SetMetaStr`: with tag 1, `SetKey`. -/
  | setMeta (tag : UInt32) (type : PbType) (data : Option PbVal)
  /-- `RemoveMeta`. -/
  | removeMeta (tag : UInt32)
  /-- `SetValue(int_val)`. -/
  | setValueInt (v : UInt64)
  /-- `SetValue(str_val)`. With `own_buf` the bytes go to the node's own buffer; they are the same. -/
  | setValueStr (s : Bytes) (ownBuf : Bool)
  /-- `GetValue`. -/
  | getValue

/-- Run a function on a node at its place. -/
def Op.run : Op → Place → KnvNode → Out
  | lookup, pl, n => n.expandOp pl
  | insertChild child own atTail, pl, n => KnvNode.insertChild child own atTail pl n
  | removeChild t k, pl, n => n.removeChild t k pl
  | removeChildrenByTag t, pl, n => n.removeChildrenByTag t pl
  | setTag t, _, n => n.setTag t
  | setMeta tag type data, pl, n => n.setMeta tag type data pl
  | removeMeta tag, pl, n => n.removeMeta tag pl
  | setValueInt v, _, n => n.setValueInt v
  | setValueStr s _, _, n => n.setValueStr s
  | getValue, _, n => n.getValueOp

/-- Run a function on the node at a path of a tree whose root has no parent. -/
def Op.runAt (op : Op) (path : List Slot) (root : KnvNode) : Option Out :=
  editAt KnvNode.hanging op.run path {} root

end KnvProto
