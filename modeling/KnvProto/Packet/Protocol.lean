import KnvProto.Node.Fields
import KnvProto.Node.SubTree

/-!
# Packets

`KnvProtocol`: a tree with one header and any number of bodies, and what it keeps
of the header.

## The model

`tree` is owned, and `header` and `body` are pointers to children of it: their
addresses. What reads a node through its pointer reads the child at the address.
Only after `AddBody` of a copy `body` points elsewhere, to the node that was copied.
Return codes are results, beside the packet. A return message is its bytes, and an
address of the network the `addr_len` bytes of the union; no bytes are none.

A node does not keep its last message, so that nothing follows where a text ends with it
and the call has not failed (the source reads a null pointer there, if none has).

A buffer that begins with the token of the other format is left to
`InitFromOidbPkg`, which is a parameter of the decoder. What `Encode` of a header
leaves of a buffer that it does not fill is zero. `auto_delete` and `Print` are
left out.
-/

namespace KnvProto

open PathEdit KnvNode

/-! ### Tags -/

/-- `KNV_PKG_TAG`. -/
abbrev knvPkgTag : UInt32 := 0xdb3

/-- `KNV_PKG_HDR_TAG`. -/
abbrev knvPkgHdrTag : UInt32 := 0xbad

/-- `KNV_PKG_BDY_TAG`. -/
abbrev knvPkgBdyTag : UInt32 := 0xdad

/-- `KNV_PKG_HDR_CMD_TAG`. -/
abbrev knvPkgHdrCmdTag : UInt32 := 2

/-- `KNV_PKG_HDR_SUBCMD_TAG`. -/
abbrev knvPkgHdrSubcmdTag : UInt32 := 3

/-- `KNV_PKG_HDR_SEQ_TAG`. -/
abbrev knvPkgHdrSeqTag : UInt32 := 4

/-- `KNV_PKG_HDR_RET_TAG`. -/
abbrev knvPkgHdrRetTag : UInt32 := 7

/-- `KNV_PKG_HDR_ERR_TAG`. -/
abbrev knvPkgHdrErrTag : UInt32 := 8

/-- `KNV_PKG_HDR_RSP_ADDR`. -/
abbrev knvPkgHdrRspAddr : UInt32 := 2001

/-- `KNV_PKG_HDR_ALLOW_SPLIT`. -/
abbrev knvPkgHdrAllowSplit : UInt32 := 2002

/-- `KNV_PKG_HDR_MAX_PKG_SIZE`. -/
abbrev knvPkgHdrMaxPkgSize : UInt32 := 2003

/-- `KNV_PKG_HDR_TOTAL_SPLIT_COUNT`. -/
abbrev knvPkgHdrTotalSplitCount : UInt32 := 2004

/-- `KNV_PKG_HDR_CURR_SPLIT_INDEX`. -/
abbrev knvPkgHdrCurrSplitIndex : UInt32 := 2005

/-- `STX_IPV6_PB`, the first byte of the other format. -/
abbrev stxIpv6Pb : UInt8 := 0x28

/-! ### Packets -/

/-- What `body` points to. -/
inductive BodyPtr where
  /-- The child of the tree at an address. -/
  | child (addr : ℕ)
  /-- A node of the user. -/
  | other (b : KnvNode)

/-- `KnvProtocol`. -/
structure KnvProtocol where
  /-- `tree`. -/
  tree : Option KnvNode := none
  /-- `header`, by address. -/
  header : Option ℕ := none
  /-- `body`. -/
  body : Option BodyPtr := none
  /-- `cmd`. -/
  cmd : UInt32 := 0
  /-- `subcmd`. -/
  subcmd : UInt32 := 0
  /-- `seq`. -/
  seq : UInt64 := 0
  /-- `retcode`. -/
  retcode : UInt32 := 0
  /-- `retmsg`, of `retmsglen` bytes. -/
  retmsg : Bytes := []
  /-- `rspaddr`. -/
  rspaddr : Bytes := []
  /-- `allow_split`. -/
  allowSplit : Bool := false
  /-- `max_pkg_sz`. -/
  maxPkgSz : UInt16 := 0
  /-- `total_split_count`. -/
  totalSplitCount : UInt8 := 0
  /-- `curr_split_index`. -/
  currSplitIndex : UInt8 := 0
  /-- `errmsg`. -/
  errmsg : String := ""

namespace KnvProtocol

/-- `IsValid`. -/
def isValid (p : KnvProtocol) : Bool := match p.tree with
  | some t => t.tag == knvPkgTag
  | none => false

/-- The child of a tree at an address. -/
def childAt (t : KnvNode) (a : ℕ) : Option KnvNode := t.childlist.find? fun c => c.self = a

/-- The node that `header` points to. -/
def headerNode (p : KnvProtocol) : Option KnvNode := p.tree.bind fun t => p.header.bind (childAt t)

/-- A function that changes nothing but `errmsg`, and fails. -/
def fail (p : KnvProtocol) (ret : ℤ) (errmsg : String) : KnvProtocol × ℤ := ({ p with errmsg := errmsg }, ret)

/-- Run a function on the header, and go on with its result. -/
def onHeader (f : Place → KnvNode → Out) (k : KnvProtocol → Except KnvErr ℕ → KnvProtocol × ℤ) (p : KnvProtocol) :
    KnvProtocol × ℤ :=
  match p.tree.bind fun t => p.header.bind fun a => t.onChild a f {} with
  | none => p.fail (-1) "Protocol is not initialized"
  | some o => k { p with tree := some o.node } o.ret

/-! ### Decoding -/

/-- A number among the metas of a header, if there is one. -/
def metaInt (h : KnvNode) (tag : UInt32) : UInt64 :=
  match (h.getMeta {} tag).2 with
  | some m => if m.type = .varint then m.val.i64 else 0
  | none => 0

/-- A string among the metas of a header, if there is one. -/
def metaStr (h : KnvNode) (tag : UInt32) : Bytes :=
  match (h.getMeta {} tag).2 with
  | some m => if m.type = .string then m.val.str else []
  | none => []

/-- The child that `FindChildByTag` finds in a header. -/
def childByTag (h : KnvNode) (tag : UInt32) : Option KnvNode :=
  match h.findChildByTag tag {} with
  | (h, some a) => childAt h a
  | (_, none) => none

/-- A number among the children of a header, if there is one. -/
def childInt (h : KnvNode) (tag : UInt32) : UInt64 :=
  match childByTag h tag with
  | some m => if m.type = .varint then m.val.i64 else 0
  | none => 0

/-- The response address in a header, which has the length of an IPv4 or an IPv6 address. -/
def childAddr (h : KnvNode) : Bytes :=
  match childByTag h knvPkgHdrRspAddr with
  | some m => if m.type = .string ∧ (m.val.str.length = 16 ∨ m.val.str.length = 28) then m.val.str else []
  | none => []

/-- `INIT_HEADER_INFO`, and what `InitHeaderInfo` reads from a header. -/
def readHeader (h : KnvNode) (p : KnvProtocol) : KnvProtocol := { p with
  cmd := (metaInt h knvPkgHdrCmdTag).toUInt32
  subcmd := (metaInt h knvPkgHdrSubcmdTag).toUInt32
  retcode := (metaInt h knvPkgHdrRetTag).toUInt32
  retmsg := metaStr h knvPkgHdrErrTag
  seq := metaInt h knvPkgHdrSeqTag
  rspaddr := childAddr h
  allowSplit := childInt h knvPkgHdrAllowSplit != 0
  maxPkgSz := (childInt h knvPkgHdrMaxPkgSize).toUInt16
  totalSplitCount := (childInt h knvPkgHdrTotalSplitCount).toUInt8
  currSplitIndex := (childInt h knvPkgHdrCurrSplitIndex).toUInt8 }

/-- `INIT_HEADER_INFO`. -/
def clearHeader (p : KnvProtocol) : KnvProtocol := { p with
  cmd := 0
  subcmd := 0
  seq := 0
  retcode := 0
  retmsg := []
  rspaddr := []
  allowSplit := false
  maxPkgSz := 0
  totalSplitCount := 0
  currSplitIndex := 0 }

/-- `InitHeaderInfo`. The header is expanded by the first lookup. -/
def initHeaderInfo (p : KnvProtocol) : KnvProtocol :=
  match p.headerNode with
  | none => p.clearHeader
  | some h => (p.onHeader (fun pl n => n.expandOp pl) fun p _ => (p.readHeader (h.innerExpand false false), 0)).1

/-- `FindFirstBody`, of a node and its siblings. -/
def findFirstBody (siblings : List KnvNode) : Option KnvNode := siblings.find? fun b => b.tag = knvPkgBdyTag

/-- `EXPAND_TREE`, of a tree: its header and its first body, if there is a header. -/
def expandTree (t : KnvNode) (p : KnvProtocol) : KnvProtocol :=
  match p.header with
  | some _ => p
  | none =>
    let body := (findFirstBody t.children).map fun b => BodyPtr.child b.self
    match t.findChildByTag knvPkgHdrTag {} with
    | (t, some h) => { p with tree := some t, header := some h, body := body }
    | (_, none) => { p with tree := none, body := none, errmsg := "Protocol has no header part" }

/-- `InitProtocol`. -/
def initProtocol (p : KnvProtocol) : KnvProtocol :=
  let none' := { p with tree := none, header := none, body := none }
  match p.tree with
  | none => none'.clearHeader
  | some t =>
    if t.tag ≠ knvPkgTag then none'.clearHeader
    else
      let p := p.expandTree t
      if p.tree.isNone then { p with header := none, body := none }.clearHeader else p.initHeaderInfo

/-- `KnvProtocol(buf, own_buf)`. -/
def ofBuf (initFromOidbPkg : Bytes → KnvProtocol → KnvProtocol) (buf : Bytes) : KnvProtocol :=
  if buf.headD 0 = stxIpv6Pb then (initFromOidbPkg buf {}).initProtocol
  else match newFromBytes buf with
    | .error e => initProtocol { errmsg := "Construct knv tree failed: " ++ e.errmsg }
    | .ok t => initProtocol { tree := some t }

/-- The siblings after the node that `body` points to. -/
def siblingsOf (t : KnvNode) : BodyPtr → List KnvNode
  | .child a => (t.childlist.dropWhile fun c => c.self ≠ a).tail
  | .other _ => []

/-- The packet with the body that was found, if there is one. -/
def withBody (found : Option KnvNode) (p : KnvProtocol) : KnvProtocol × Option KnvNode :=
  match found with
  | some b => ({ p with body := some (.child b.self) }, some b)
  | none => (p, none)

/-- `GetFirstRequest`. -/
def getFirstRequest (p : KnvProtocol) : KnvProtocol × Option KnvNode :=
  p.withBody (p.tree.bind fun t => findFirstBody t.children)

/-- `GetNextRequest`. -/
def getNextRequest (p : KnvProtocol) : KnvProtocol × Option KnvNode :=
  p.withBody (p.tree.bind fun t => p.body.bind fun b => findFirstBody (siblingsOf t b))

/-! ### Encoding -/

/-- `SetHeaderIntField`. -/
def setHeaderIntField (ftag : UInt32) (newVal : UInt64) (p : KnvProtocol) : KnvProtocol × ℤ :=
  if !p.isValid then p.fail (-1) "Protocol is not initialized"
  else p.onHeader (setField ftag .varint { i64 := newVal }) fun p r =>
    match r with
    | .error e => p.fail (-2) ("Set header meta failed: " ++ e.errmsg)
    | .ok _ =>
      -- update corresponding variables
      (if ftag = knvPkgHdrCmdTag then { p with cmd := newVal.toUInt32 }
        else if ftag = knvPkgHdrSubcmdTag then { p with subcmd := newVal.toUInt32 }
        else if ftag = knvPkgHdrSeqTag then { p with seq := newVal }
        else if ftag = knvPkgHdrRetTag then { p with retcode := newVal.toUInt32 }
        else p, 0)

/-- `SetHeaderStringField`: an empty string removes the field. The number of children that are removed is taken for an
error. -/
def setHeaderStringField (ftag : UInt32) (newVal : Bytes) (p : KnvProtocol) : KnvProtocol × ℤ :=
  if !p.isValid then p.fail (-1) "Protocol is not initialized"
  else p.onHeader (if newVal ≠ [] then setField ftag .string { str := newVal } else removeField ftag) fun p r =>
    match r with
    | .error e => p.fail (-2) ("Set header meta failed: " ++ e.errmsg)
    | .ok 0 => (if ftag = knvPkgHdrErrTag then { p with retmsg := newVal } else p, 0)
    | .ok _ => p.fail (-2) "Set header meta failed: "

/-- `SetCommand`. -/
def setCommand (newCmd : UInt32) (p : KnvProtocol) : KnvProtocol × ℤ :=
  p.setHeaderIntField knvPkgHdrCmdTag newCmd.toUInt64

/-- `SetSubCommand`. -/
def setSubCommand (newSubcmd : UInt32) (p : KnvProtocol) : KnvProtocol × ℤ :=
  p.setHeaderIntField knvPkgHdrSubcmdTag newSubcmd.toUInt64

/-- `SetSequence`. -/
def setSequence (newSeq : UInt64) (p : KnvProtocol) : KnvProtocol × ℤ := p.setHeaderIntField knvPkgHdrSeqTag newSeq

/-- `SetRetErrorMsg`. -/
def setRetErrorMsg (msg : Bytes) (p : KnvProtocol) : KnvProtocol × ℤ := p.setHeaderStringField knvPkgHdrErrTag msg

/-- What `SetRspAddr` does to the header. -/
def putRspAddr (addr : Bytes) (pl : Place) (h : KnvNode) : Out :=
  match h.findChildByTag knvPkgHdrRspAddr pl with
  | (h, some a) =>
    match h.onChild a (fun _ c => c.setValueStr addr) pl with
    | some o => { o with ret := o.ret.mapError fun (e : KnvErr) => ⟨-1, "Update header value failed: " ++ e.errmsg⟩ }
    | none => ⟨h, [], .ok 0⟩
  | (h, none) =>
    let o := h.insertStrLeaf knvPkgHdrRspAddr addr pl
    { o with ret := o.ret.mapError fun (e : KnvErr) => ⟨-2, "Insert header value failed: " ++ e.errmsg⟩ }

/-- `SetRspAddr`. -/
def setRspAddr (addr : Bytes) (p : KnvProtocol) : KnvProtocol × ℤ :=
  if !p.isValid then p.fail (-1) "Protocol is not initialized"
  else { p with rspaddr := addr }.onHeader (putRspAddr addr) fun p r =>
    match r with
    | .error e => p.fail e.ret e.errmsg
    | .ok _ => (p, 0)

/-- The new tree of a packet, with an empty header. -/
def newPacket : KnvProtocol :=
  match newTree knvPkgTag with
  | .error _ => {}
  | .ok t =>
    let o := t.insertSubNode knvPkgHdrTag none {}
    match o.ret with
    | .error _ => {}
    | .ok _ => { tree := some o.node, header := (o.node.childlist.getLast?).map (·.self) }

/-- Go on after a call that returned 0, and give the tree up otherwise. -/
def orGiveUp (r : KnvProtocol × ℤ) (k : KnvProtocol → KnvProtocol) : KnvProtocol :=
  if r.2 = 0 then k r.1 else { r.1 with tree := none, header := none }

/-- `KnvProtocol(dwCmd, dwSubCmd, dwSeq)`. -/
def create (dwCmd dwSubCmd dwSeq : UInt32) : KnvProtocol :=
  if newPacket.header.isNone then newPacket
  else orGiveUp (newPacket.setCommand dwCmd) fun p =>
    orGiveUp (p.setSubCommand dwSubCmd) fun p =>
      orGiveUp (p.setSequence dwSeq.toUInt64) fun p =>
        { p with cmd := dwCmd, subcmd := dwSubCmd, seq := dwSeq.toUInt64 }

/-- `AddBody(b, take_ownership)`. -/
def addBody (b : KnvNode) (takeOwnership : Bool) (p : KnvProtocol) : KnvProtocol × ℤ :=
  match p.tree with
  | none => p.fail (-1) "Protocol is not initialized"
  | some t =>
    if t.tag ≠ knvPkgTag then p.fail (-1) "Protocol is not initialized"
    else if b.tag ≠ knvPkgBdyTag then p.fail (-2) "Request body is invalid"
    else
      let o := KnvNode.insertChild b takeOwnership true {} t
      match o.ret with
      | .error e => { p with tree := some o.node }.fail (-3) ("Error inserting KnvNode: " ++ e.errmsg)
      | .ok _ =>
        let body := if takeOwnership then (o.node.childlist.getLast?).map fun c => BodyPtr.child c.self else some (.other b)
        ({ p with tree := some o.node, body := body }, 0)

/-- `EncodeAll`. -/
def encodeAll (p : KnvProtocol) : Except KnvErr Bytes :=
  match p.tree with
  | none => .error ⟨-1, "Protocol is not initialized"⟩
  | some t =>
    if t.tag ≠ knvPkgTag then .error ⟨-1, "Protocol is not initialized"⟩
    else
      let sz := t.evaluateSize.evalSz.toNat
      match t.serialize sz true with
      | .error e => .error ⟨-3, "Serializing tree failed: " ++ e.errmsg⟩
      | .ok out => .ok out

/-- `Encode(ret, err, errlen, body_tree)`, with the return code and the message of the header and without a body. -/
def encodeHeader (p : KnvProtocol) : Except KnvErr Bytes :=
  match p.isValid, p.headerNode with
  | true, some h =>
    let totalValSz := h.evaluateSize.evalSz.toNat
    let totalSz := pbEvalLength knvPkgTag .string 0 totalValSz
    match pbAddStringHead (pbInitBuff totalSz) knvPkgTag totalValSz with
    | .error e => .error ⟨-8, "knv_add_string_head failed: " ++ e.errmsg⟩
    | .ok b =>
      match h.serialize (totalSz - b.out.length) true with
      | .error e => .error ⟨-9, "serializing header failed: " ++ e.errmsg⟩
      | .ok out => .ok (b.out ++ out ++ List.replicate (totalSz - b.out.length - out.length) 0)
  | _, _ => .error ⟨-1, ""⟩

/-- `Encode(s)`. -/
def encode (p : KnvProtocol) : Except KnvErr Bytes := if p.retcode ≠ 0 then p.encodeHeader else p.encodeAll

end KnvProtocol

end KnvProto
