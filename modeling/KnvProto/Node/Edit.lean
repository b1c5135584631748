import KnvProto.Library.PathEdit
import KnvProto.Node.Expand
import KnvProto.Node.Serialize

/-!
# Edits

The functions of `KnvNode` that change a node, and what they do to its parents.

## The model

What the source does through `parent` is a message here, taken by the parent
after the node is back in its place: `parent->ht.remove(this)`,
`parent->ht.put(this)`, and one turn of the loop of
`UpdateParentEvalueAndSetDirty`, which sends the next turn on to the parent
above. None of these functions reads its parent in between, except
`InnerExpand`, which is given whether the parent has a key.
-/

namespace KnvProto

open PathEdit

/-- What a node tells its parent. -/
inductive Ev where
  /-- `parent->ht.remove(this)`, under this tag and key. -/
  | htRemove (tag : UInt32) (key : Bytes)
  /-- `parent->ht.put(this)`, under this tag and key. -/
  | htPut (tag : UInt32) (key : Bytes)
  /-- A turn of `UpdateParentEvalueAndSetDirty`, with its `offset`, `updateeval` and `updatedirty`. -/
  | update (offset : ℤ) (updateeval updatedirty : Bool)
  deriving DecidableEq

/-- A position in a parent. -/
inductive Slot where
  /-- In `metalist`. -/
  | ofMeta (i : ℕ)
  /-- In `childlist`. -/
  | ofChild (i : ℕ)
  deriving DecidableEq

/-- What a node's place tells it: whether the parent has a key, and whether it is a meta. -/
structure Place where
  /-- `parent && parent->key.len`. -/
  parentKeyed : Bool := false
  /-- Among the metas of its parent. -/
  isMeta : Bool := false
  deriving DecidableEq

/-- The outcome of a function of `KnvNode`: a number is a return code or a count. -/
abbrev Out := Outcome KnvNode Ev (Except KnvErr ℕ)

namespace KnvNode

/-- A function that changes nothing and fails. -/
def fail (n : KnvNode) (ret : ℤ) (errmsg : String) : Out := ⟨n, [], .error ⟨ret, errmsg⟩⟩

/-! ### Upwards -/

/-- `UPDATE_EVAL_SZ(node, offset)`: the node, and the new `offset`. -/
def updateEvalSz (n : KnvNode) (offset : ℤ) : KnvNode × ℤ :=
  if offset = 0 then (n, 0)
  else
    let evalValSz := n.evalValSz + offset
    let newEvalSz : ℤ := pbEvalLength n.tag n.type (UInt64.ofNat evalValSz.toNat) evalValSz.toNat
    ({ n with evalValSz := evalValSz, evalSz := newEvalSz }, newEvalSz - n.evalSz)

/-- `SET_VALUE_DIRTY(node)`. -/
def setValueDirty (n : KnvNode) : KnvNode := { n with val := { n.val with str := [] }, subnodeDirty := true }

/-- `UpdateParentEvalueAndSetDirty(offset)` starts its loop at the parent. -/
def updateParent (offset : ℤ) : Ev := .update offset (offset != 0) true

/-- The turn of the loop of `UpdateParentEvalueAndSetDirty` at a node: what `updateeval` does. -/
def turnEval (n : KnvNode) (offset : ℤ) (updateeval : Bool) : KnvNode × ℤ × Bool :=
  if updateeval then
    if n.evalSz < 0 || offset = 0 then (n, offset, false)
    else ((n.updateEvalSz offset).1, (n.updateEvalSz offset).2, true)
  else (n, offset, false)

/-- The turn of the loop at a node: what `updatedirty` does. A dirty node has dirty parents. -/
def turnDirty (n : KnvNode) (updatedirty : Bool) : KnvNode × Bool :=
  if updatedirty then (if n.subnodeDirty then (n, false) else (n.setValueDirty, true)) else (n, false)

/-- What the parent does with a message of the node at address `a`. -/
def handle (a : ℕ) (p : KnvNode) : Ev → KnvNode × List Ev
  | .htRemove tag key => ({ p with ht := p.ht.remove a tag key }, [])
  | .htPut tag key => ({ p with ht := p.ht.put (fun b => if b = a then (tag, key) else p.look b) a }, [])
  | .update offset updateeval updatedirty =>
    if updatedirty || updateeval then
      let (p, offset, updateeval) := p.turnEval offset updateeval
      let (p, updatedirty) := p.turnDirty updatedirty
      (p, [.update offset updateeval updatedirty])
    else (p, [])

theorem handle_update (a : ℕ) (p : KnvNode) (o : ℤ) (e d : Bool) :
    p.handle a (.update o e d) = if d || e then
      (((p.turnEval o e).1.turnDirty d).1,
        [.update (p.turnEval o e).2.1 (p.turnEval o e).2.2 ((p.turnEval o e).1.turnDirty d).2])
      else (p, []) := rfl

/-- What the parent does with all messages of the node at address `a`. -/
def handleAll (a : ℕ) : KnvNode → List Ev → KnvNode × List Ev
  | p, [] => (p, [])
  | p, ev :: evs =>
    let (p, up) := p.handle a ev
    let (p, ups) := p.handleAll a evs
    (p, up ++ ups)

theorem handleAll_cons (a : ℕ) (p : KnvNode) (ev : Ev) (evs : List Ev) :
    p.handleAll a (ev :: evs) =
      (((p.handle a ev).1.handleAll a evs).1, (p.handle a ev).2 ++ ((p.handle a ev).1.handleAll a evs).2) := rfl

/-- The node in a slot. -/
def slot (n : KnvNode) : Slot → Option KnvNode
  | .ofMeta i => n.metalist[i]?
  | .ofChild i => n.childlist[i]?

/-- Put a node into a slot that is taken. -/
def setSlot (n : KnvNode) (s : Slot) (c : KnvNode) : KnvNode :=
  match s with
  | .ofMeta i => { n with metalist := n.metalist.set i c }
  | .ofChild i => { n with childlist := n.childlist.set i c }

@[simp] theorem setSlot_ofMeta (n : KnvNode) (i : ℕ) (c : KnvNode) :
    n.setSlot (.ofMeta i) c = { n with metalist := n.metalist.set i c } := rfl

@[simp] theorem setSlot_ofChild (n : KnvNode) (i : ℕ) (c : KnvNode) :
    n.setSlot (.ofChild i) c = { n with childlist := n.childlist.set i c } := rfl

/-- The place a slot is. -/
def place (n : KnvNode) (s : Slot) : Place :=
  ⟨n.key.bytes != [], match s with
    | .ofMeta _ => true
    | .ofChild _ => false⟩

/-- How nodes hang in each other. -/
def hanging : Hanging KnvNode Slot Place Ev where
  get := slot
  set := setSlot
  ctx := place
  notify p s evs := match p.slot s with
    | some c => p.handleAll c.self evs
    | none => (p, [])

/-! ### Values and tags -/

/-- `SetValue(int_val)`. -/
def setValueInt (v : UInt64) (n : KnvNode) : Out :=
  if !n.isValid then n.fail (-1) "invalid data node"
  else if n.type = .string then n.fail (-2) "node type mismatch"
  else
    let val : PbVal := { i64 := v }
    let newEvalSz : ℤ := pbEvalFieldLength n.tag n.type val
    ⟨{ n with val := val, evalSz := newEvalSz, evalValSz := 0, subnodeDirty := true },
      [updateParent (newEvalSz - n.evalSz)], .ok 0⟩

/-- The key that the test of `SetValue(str_val)` for an unchanged key leaves behind: it reads the new
value into the node's own key, and never into the `k` that it then compares. -/
def keyAfterTest (n : KnvNode) (s : Bytes) : KnvKey :=
  if (n.expanded && (!n.childlist.isEmpty || n.metalist.isEmpty)) && n.hasKey then
    match pbBegin s with
    | some (f, _) => if f.tag ≠ 1 then KnvKey.init f.type (some f.val) else {}
    | none => {}
  else n.key

/-- `SetValue(str_val)`. -/
def setValueStr (s : Bytes) (n : KnvNode) : Out :=
  if !n.isValid then n.fail (-1) "invalid data node"
  else if n.type ≠ .string then n.fail (-2) "node type mismatch"
  else
    let n := { n with key := n.keyAfterTest s }
    let n := { n with val := { str := s } }
    -- renew key's pointer
    let (n, evs) :=
      if n.hasKey then
        let k := KnvKey.ofBytes s
        ({ n with key := k }, [Ev.htRemove n.tag n.key.bytes, .htPut n.tag k.bytes])
      else (n, [])
    -- expanded data are no longer up to date
    let n := { n with expanded := false, metalist := [], childlist := [], subnodeDirty := true }
    let (n, offset) := if 0 ≤ n.evalSz then n.updateEvalSz (n.val.str.length - n.evalValSz) else (n, 0)
    ⟨n, evs ++ [updateParent offset], .ok 0⟩

/-- `SetValue(type, new_val)`. -/
def setValue (type : PbType) (v : PbVal) (n : KnvNode) : Out :=
  if type = .string then n.setValueStr v.str else n.setValueInt v.i64

/-- `SetTag`. -/
def setTag (t : UInt32) (n : KnvNode) : Out :=
  if t = 0 then n.fail (-1) "Bad tag argument"
  else if !n.isValid then n.fail (-2) "Knv tree is not initialized"
  else
    let evs := [Ev.htRemove n.tag n.key.bytes, .htPut t n.key.bytes]
    let newEvalSz : ℤ :=
      if 0 ≤ n.evalSz then
        if n.type = .string then pbEvalLength t n.type 0 n.evalValSz.toNat else pbEvalFieldLength t n.type n.val
      else n.evalSz
    ⟨{ n with tag := t, evalSz := newEvalSz, subnodeDirty := true }, evs ++ [updateParent (newEvalSz - n.evalSz)], .ok 0⟩

end KnvNode

end KnvProto
