import KnvProto.Node.Ops

/-!
# Fields

`SetFieldInt`, `SetFieldStr`, `GetFieldInt` and `RemoveField`: a field is a meta if
its tag is small, and otherwise a child that is found by its tag alone.
-/

namespace KnvProto.KnvNode

open PathEdit

/-- Run a function on the child at an address. -/
def onChild (a : ℕ) (f : Place → KnvNode → Out) (pl : Place) (n : KnvNode) : Option Out :=
  editAt hanging f [.ofChild (n.childlist.findIdx fun c => c.self = a)] pl n

/-- `SetChild`. -/
def setChild (tag : UInt32) (type : PbType) (data : PbVal) (pl : Place) (n : KnvNode) : Out :=
  let (n, found) := n.findChildByTag tag pl
  match found.bind fun a => n.childlist.find? fun c => c.self = a with
  | some c =>
    if (type = .string ∧ c.type ≠ type) ∨ (type ≠ .string ∧ c.type = .string) then
      n.fail (-2) "Tag already exists with different type"
    else
      match n.onChild c.self (fun _ c => c.setValue type data) pl with
      | none => ⟨n, [], .ok 0⟩
      | some o => { o with ret := o.ret.mapError fun e => ⟨-1, e.errmsg⟩ }
  | none =>
    let o := n.insertNew (new tag type .string none (some data)) pl
    { o with ret := o.ret.mapError fun e => ⟨-3, e.errmsg⟩ }

/-- `SetFieldInt`, `SetFieldStr` and the like. -/
def setField (tag : UInt32) (type : PbType) (data : PbVal) (pl : Place) (n : KnvNode) : Out :=
  if tag ≤ ucMaxMetaNum then n.setMeta tag type (some data) pl else n.setChild tag type data pl

/-- `GetIntVal`. -/
def getIntVal (n : KnvNode) : UInt64 :=
  match n.type with
  | .varint => n.val.i64
  | .fixed64 => n.val.i64
  | .fixed32 => n.val.i32.toUInt64
  | .string => 0

/-- `GetMetaInt`. -/
def getMetaInt (tag : UInt32) (pl : Place) (n : KnvNode) : UInt64 :=
  match (n.getMeta pl tag).2 with
  | some m => m.getIntVal
  | none => 0

/-- `GetIntVal` of the child at an address, if there is one. -/
def intAt (n : KnvNode) (a : Option ℕ) : UInt64 :=
  match a.bind fun a => n.childlist.find? fun c => c.self = a with
  | some c => c.getIntVal
  | none => 0

/-- `GetChildInt`. -/
def getChildInt (tag : UInt32) (pl : Place) (n : KnvNode) : UInt64 :=
  let (n, found) := n.findChildByTag tag pl
  n.intAt found

/-- `GetFieldInt`. -/
def getFieldInt (tag : UInt32) (pl : Place) (n : KnvNode) : UInt64 :=
  if tag ≤ ucMaxMetaNum then n.getMetaInt tag pl else n.getChildInt tag pl

/-- `RemoveMetaByTag`: all metas with the tag go. -/
def removeMetaByTag (tag : UInt32) (pl : Place) (n : KnvNode) : Out :=
  if !n.isValid then n.fail (-1) "Node is not initialized"
  else if ucMaxMetaNum < tag then n.fail (-2) "Tag is out of range"
  else
    let n := n.innerExpand pl.parentKeyed false
    if n.metalist.isEmpty || (n.metas tag).isNone then ⟨n, [], .ok 0⟩
    else
      let o := if !n.noKey && tag == 1 then n.setKey n.key.type none pl else ⟨n, [], .ok 0⟩
      match o.ret with
      | .error _ => o
      | .ok _ =>
        let n := o.node
        let o' := finish { n with
            metalist := n.metalist.filter fun m => m.tag ≠ tag
            metas := fun t => if t = tag then none else n.metas t }
          (if 0 ≤ n.evalSz then -((n.metalist.filter fun m => m.tag = tag).map (·.evaluateSize.evalSz)).sum else 0)
        ⟨o'.node, o.msgs ++ o'.msgs, .ok 0⟩

/-- `RemoveField`. -/
def removeField (tag : UInt32) (pl : Place) (n : KnvNode) : Out :=
  if tag ≤ ucMaxMetaNum then n.removeMetaByTag tag pl else n.removeChildrenByTag tag pl

end KnvProto.KnvNode
