import KnvProto.Node.Basic
import KnvProto.Memory.SizeClass

/-!
# The buffers that values live in

`knv_dynamic_data_t`, and what `SetMeta` does with it. A value is a reference into a buffer: the `small_buf` of a node, a
block of the memory pool that a node holds, or memory of somebody else. A node that is expanded shares its buffer with the
nodes it is expanded to, and a meta that is overwritten is put into the buffer of the node it belongs to.

## The model

One node with its metas and what is below its children; every node has its `dyn_data`, and a value is the place of its
bytes. Numbers are kept in the node itself and are no places. The address of a node and the number of a block are given
once. A block that has been freed holds nothing, and a reference into it reads nothing.

A meta is read from its own value; a child that has been changed is read from the values below it, which are listed
with the children.
-/

namespace KnvProto.Buffers

open Memory

/-- A buffer. -/
inductive Buf where
  /-- `small_buf` of the node. -/
  | own
  /-- `small_buf` of a node below it, by address. -/
  | small (a : ℕ)
  /-- A block of the memory pool. -/
  | block (id : ℕ)
  /-- Memory of the caller, or of a tree that the node is a part of. -/
  | outside
  deriving DecidableEq

/-- `val.str`: `len` bytes from `off` on. -/
structure Str where
  /-- The buffer `data` points into. -/
  buf : Buf
  /-- Where it points. -/
  off : ℕ
  /-- `len`. -/
  len : ℕ
  deriving DecidableEq

/-- `knv_dynamic_data_t`; `data` is the beginning of a buffer. -/
structure DynData where
  /-- `sz`. -/
  sz : ℕ := 0
  /-- `data`. -/
  data : Option Buf := none
  /-- `mem`. -/
  mem : Option ℕ := none

/-- What the buffers hold. -/
structure Mem where
  /-- The bytes of a buffer that is in use. -/
  content : Buf → Option Bytes
  /-- The next block. -/
  next : ℕ

/-- Read a string: nothing has to be there for one of length 0. -/
def Mem.read (M : Mem) (v : Str) : Option Bytes :=
  if v.len = 0 then some [] else (M.content v.buf).map fun bs => (bs.drop v.off).take v.len

/-- `UcMemManager::Free(mem)`. -/
def Mem.free (M : Mem) (mem : Option ℕ) : Mem :=
  { M with content := fun b => if mem.map Buf.block = some b then none else M.content b }

/-- `memcpy(data, s, len)`, to the beginning of a buffer. -/
def Mem.memcpy (M : Mem) (b : Buf) (s : Bytes) : Mem :=
  { M with content := fun b' => if b' = b then some (s ++ ((M.content b).getD []).drop s.length) else M.content b' }

/-- Does `knv_dynamic_data_t::alloc` keep the buffer it has? `req_sz<<10` is computed in 32 bits. -/
def DynData.fits (d : DynData) (reqSz : ℕ) : Bool := !(d.sz < reqSz || reqSz * 1024 % 2 ^ 32 < d.sz)

/-- `knv_dynamic_data_t::alloc`, of a node whose `small_buf` is given. -/
def DynData.alloc (small : Buf) (reqSz : ℕ) (d : DynData) (M : Mem) : DynData × Mem × Buf :=
  -- use internal small buf if possible
  if reqSz ≤ 64 then ({ sz := 64, data := some small }, M.free d.mem, small)
  else
    match d.data, d.fits reqSz with
    | some b, true => (d, M, b)
    | _, _ =>
      let M' := M.free d.mem
      let sz := if allocSize reqSz = 0 then reqSz else allocSize reqSz
      ({ sz := sz, data := some (.block M.next), mem := some M.next },
        { content := fun b => if b = .block M.next then some [] else M'.content b, next := M.next + 1 }, .block M.next)

/-- `knv_dynamic_data_t::assign`, of a new block with these bytes. -/
def DynData.assign (bs : Bytes) (d : DynData) (M : Mem) : DynData × Mem :=
  let M' := M.free d.mem
  let sz := if allocSize bs.length = 0 then bs.length else allocSize bs.length
  ({ sz := sz, data := some (.block M.next), mem := some M.next },
    { content := fun b => if b = .block M.next then some bs else M'.content b, next := M.next + 1 })

/-- A node below: where its value is, and its `dyn_data`. -/
structure NodeBuf where
  /-- The address. -/
  self : ℕ
  /-- `tag`. -/
  tag : UInt32
  /-- `dyn_data`. -/
  dyn : DynData := {}
  /-- `val.str`; a number and an empty string are in no buffer. -/
  val : Option Str := none

/-- A valid node that is a message, and what is below it. -/
structure Bufs where
  /-- `dyn_data`. -/
  dyn : DynData := {}
  /-- `metalist`. -/
  metalist : List NodeBuf := []
  /-- `metas[]`. -/
  metas : UInt32 → Option ℕ := fun _ => none
  /-- `childlist`, and what is below the children. -/
  below : List NodeBuf := []
  /-- The next address. -/
  slots : ℕ := 0
  /-- The buffers. -/
  mem : Mem

namespace Bufs

/-- The node `metas[tag]` points to. -/
def metaAt (s : Bufs) (tag : UInt32) : Option NodeBuf :=
  if s.metalist.isEmpty then none else (s.metas tag).bind fun a => s.metalist.find? fun m => m.self = a

/-- `GetMetaStr`. -/
def getMetaStr (s : Bufs) (tag : UInt32) : Option Bytes :=
  match s.metaAt tag with
  | some m => match m.val with
    | some v => s.mem.read v
    | none => some []
  | none => some []

/-- `InitNode` of the next node, with a string and `own_buf`. -/
def initStr (s : Bufs) (tag : UInt32) (bs : Bytes) : NodeBuf × Mem :=
  if bs = [] then ({ self := s.slots, tag := tag }, s.mem)
  else
    let (d, M, b) := DynData.alloc (.small s.slots) bs.length {} s.mem
    ({ self := s.slots, tag := tag, dyn := d, val := some ⟨b, 0, bs.length⟩ }, M.memcpy b bs)

/-- `metas[]` and `metalist` with a new meta. -/
def addMeta (s : Bufs) (m : NodeBuf) : Bufs :=
  { s with
    metalist := if m.tag = 1 then m :: s.metalist else s.metalist ++ [m]
    metas := fun t => if t = m.tag then some m.self else if s.metalist.isEmpty then none else s.metas t
    slots := s.slots + 1 }

/-- `metalist` with a meta replaced. -/
def setMetaNode (s : Bufs) (m : NodeBuf) : Bufs :=
  { s with metalist := s.metalist.map fun x => if x.self = m.self then m else x }

/-- `SetMetaStr`: an existing meta is put into the buffer of the node. -/
def setMetaStr (s : Bufs) (tag : UInt32) (bs : Bytes) : Bufs :=
  match s.metaAt tag with
  | none =>
    let (m, M) := s.initStr tag bs
    { s with mem := M }.addMeta m
  | some m =>
    let (d, M, b) := s.dyn.alloc .own bs.length s.mem
    { s with dyn := d, mem := M.memcpy b bs }.setMetaNode { m with val := some ⟨b, 0, bs.length⟩ }

/-- `SetMetaInt`. -/
def setMetaInt (s : Bufs) (tag : UInt32) : Bufs :=
  match s.metaAt tag with
  | none => s.addMeta { self := s.slots, tag := tag }
  | some m => s.setMetaNode { m with val := none }

/-- A node that is released gives its block back. -/
def release (s : Bufs) (m : NodeBuf) : Bufs := { s with mem := s.mem.free m.dyn.mem }

/-- `RemoveMeta`. -/
def removeMeta (s : Bufs) (tag : UInt32) : Bufs :=
  match s.metaAt tag with
  | none => s
  | some m =>
    { s with
      metalist := s.metalist.eraseP fun x => x.self = m.self
      metas := fun t => if t = tag then none else s.metas t }.release m

/-- `InsertStrLeaf`. -/
def insertStrLeaf (s : Bufs) (tag : UInt32) (bs : Bytes) : Bufs :=
  let (c, M) := s.initStr tag bs
  { s with mem := M, below := s.below ++ [c], slots := s.slots + 1 }

/-- A node below is removed. -/
def removeBelow (s : Bufs) (a : ℕ) : Bufs :=
  match s.below.find? fun c => c.self = a with
  | none => s
  | some c => { s with below := s.below.eraseP fun x => x.self = c.self }.release c

/-- The string of a field that ends at `pos` in a value: it is the last thing in the field. -/
def placeOf (v : Str) (f : PbField) (pos : ℕ) : Option Str :=
  if f.type = .string ∧ f.val.str ≠ [] then some ⟨v.buf, v.off + (pos - f.val.str.length), f.val.str.length⟩ else none

/-- One turn of the loop of `InnerExpand`, over the bytes of `v`; the field ends at `pos`. -/
def expandField (v : Str) (s : Bufs × ℕ) (p : PbField × ℕ) : Bufs × ℕ :=
  let pos := s.2 + p.2
  let m : NodeBuf := { self := s.1.slots, tag := p.1.tag, val := placeOf v p.1 pos }
  -- metas in the order of the fields, also one with the tag 1
  if p.1.tag ≤ ucMaxMetaNum then
    ({ s.1 with
      metalist := s.1.metalist ++ [m]
      metas := fun t => if t = p.1.tag then some m.self else if s.1.metalist.isEmpty then none else s.1.metas t
      slots := s.1.slots + 1 }, pos)
  else ({ s.1 with below := s.1.below ++ [m], slots := s.1.slots + 1 }, pos)

/-- The nodes below the node are released. -/
def clear (s : Bufs) : Bufs :=
  (s.metalist ++ s.below).foldl release { s with metalist := [], below := [] }

/-- `InnerExpand`, of a node whose value is `v`. -/
def expand (s : Bufs) (v : Str) : Bufs :=
  match s.mem.read v with
  | none => s
  | some bs =>
    let (fs, eom) := pbScan bs
    -- a message that does not end correctly loses its nodes
    if eom then (fs.foldl (expandField v) (s, 0)).1 else s

/-- The node gets a new value in its own buffer, and is expanded: `New(data, own_buf)`, `SetValue(str, own_buf)`. -/
def setValueStr (s : Bufs) (bs : Bytes) : Bufs :=
  let s := s.clear
  if bs = [] then s
  else
    let (d, M, b) := s.dyn.alloc .own bs.length s.mem
    { s with dyn := d, mem := M.memcpy b bs }.expand ⟨b, 0, bs.length⟩

/-- `Fold` writes the node into a block; then it is expanded. -/
def fold (s : Bufs) (bs : Bytes) : Bufs :=
  let s := s.clear
  let (d, M) := s.dyn.assign bs s.mem
  { s with dyn := d, mem := M }.expand ⟨.block s.mem.next, 0, bs.length⟩

/-- One turn of the loop of `InnerExpand` of a node below. -/
def expandFieldBelow (v : Str) (s : Bufs × ℕ) (p : PbField × ℕ) : Bufs × ℕ :=
  let pos := s.2 + p.2
  let c : NodeBuf := { self := s.1.slots, tag := p.1.tag, val := placeOf v p.1 pos }
  ({ s.1 with below := s.1.below ++ [c], slots := s.1.slots + 1 }, pos)

/-- A node below with the value `v` is expanded. -/
def expandBelow (s : Bufs) (v : Str) : Bufs :=
  match s.mem.read v with
  | none => s
  | some bs =>
    let (fs, eom) := pbScan bs
    if eom then (fs.foldl (expandFieldBelow v) (s, 0)).1 else s

/-- `SetValue(str, own_buf)` of a node below that is not expanded. -/
def setBelowStr (s : Bufs) (c : NodeBuf) (bs : Bytes) : Bufs :=
  let (d, M, b) := c.dyn.alloc (.small c.self) bs.length s.mem
  { s with
    mem := M.memcpy b bs
    below := s.below.map fun x => if x.self = c.self then { c with dyn := d, val := some ⟨b, 0, bs.length⟩ } else x }

end Bufs

/-- No block has been given away, and nothing has been written. -/
def Mem.start (outside : Bytes) : Mem where
  content b := match b with
    | .own => some []
    | .small _ => some []
    | .block _ => none
    | .outside => some outside
  next := 0

/-- The states of a node in any run. -/
inductive BufRun : Bufs → Prop
  /-- `NewTree`. -/
  | newTree : BufRun { mem := Mem.start [] }
  /-- A node whose value is a part of the value of another node, or belongs to the caller. -/
  | inside (bs : Bytes) (v : Str) : v.buf = .outside → BufRun (Bufs.expand { mem := Mem.start bs } v)
  /-- `New` from bytes with `own_buf`, or `SetValue` of a string with `own_buf`; then the node is expanded. -/
  | setValueStr {s : Bufs} (bs : Bytes) : BufRun s → BufRun (s.setValueStr bs)
  /-- `Fold`, to whatever bytes; then the node is expanded again. -/
  | fold {s : Bufs} (bs : Bytes) : BufRun s → BufRun (s.fold bs)
  /-- `SetMetaStr`. -/
  | setMetaStr {s : Bufs} (tag : UInt32) (bs : Bytes) : BufRun s → BufRun (s.setMetaStr tag bs)
  /-- `SetMetaInt`. -/
  | setMetaInt {s : Bufs} (tag : UInt32) : BufRun s → BufRun (s.setMetaInt tag)
  /-- `RemoveMeta`. -/
  | removeMeta {s : Bufs} (tag : UInt32) : BufRun s → BufRun (s.removeMeta tag)
  /-- `InsertStrLeaf`. -/
  | insertStrLeaf {s : Bufs} (tag : UInt32) (bs : Bytes) : BufRun s → BufRun (s.insertStrLeaf tag bs)
  /-- A node below is removed. -/
  | removeBelow {s : Bufs} (a : ℕ) : BufRun s → BufRun (s.removeBelow a)
  /-- A node below is expanded. -/
  | expandBelow {s : Bufs} {c : NodeBuf} {v : Str} : BufRun s → c ∈ s.below → c.val = some v → BufRun (s.expandBelow v)
  /-- A node below that is not expanded gets a new value. -/
  | setBelowStr {s : Bufs} {c : NodeBuf} (bs : Bytes) : BufRun s → c ∈ s.below → BufRun (s.setBelowStr c bs)

end KnvProto.Buffers
