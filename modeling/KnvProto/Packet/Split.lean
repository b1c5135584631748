import KnvProto.Packet.Partial

/-!
# Cutting a packet into parts

`Split` encodes a packet with a body that may be too long, and when it is, puts the
pieces of the encoding into the tree, each under the tag of its part. `EncodePart`
encodes the header, with the index of a part, and one of them.

When the packet need not be cut, the body of the caller is put into the tree under the
tag of the first part, and `EncodePart` gives it its own tag back for as long as it is
encoded.

## The model

Sizes are those of packets shorter than `2^31`: nothing is allocated for a longer one.
What an encoder does not fill of the buffer is zero.
-/

namespace KnvProto

open PathEdit KnvNode

/-- `KNV_DEFUALT_MAX_PKG_SIZE`. -/
abbrev knvDefualtMaxPkgSize : ℕ := 64000

namespace KnvProtocol

/-- `GetMaxPkgSize`. -/
def getMaxPkgSize (p : KnvProtocol) : ℕ :=
  if p.maxPkgSz.toNat < 128 ∨ knvDefualtMaxPkgSize < p.maxPkgSz.toNat then knvDefualtMaxPkgSize else p.maxPkgSz.toNat

/-! ### Encoding into a buffer -/

/-- `UcMemManager::Alloc`, of a buffer for an encoding. -/
def alloc (r : Except KnvErr Bytes) : Except KnvErr Bytes :=
  match r with
  | .error e => .error e
  | .ok m => if 2 ^ 31 ≤ m.length then .error ⟨-2, "UcMemManager::Alloc failed"⟩ else .ok m

/-- `Encode(mem)`: the buffer has the evaluated size. -/
def encodeMem (p : KnvProtocol) : Except KnvErr Bytes :=
  match p.encode, p.retcode == 0, p.tree with
  | .ok out, true, some t => alloc (.ok (out ++ List.replicate (t.evaluateSize.evalSz.toNat - out.length) 0))
  | r, _, _ => alloc r

/-- `EncodeWithBody(b, mem)`. -/
def encodeWithBodyMem (b : KnvNode) (p : KnvProtocol) : KnvProtocol × Except KnvErr Bytes :=
  match p.encodeWithBody b with
  | (p, r) => (p, alloc r)

/-! ### Splitting -/

/-- `Split`, where there is no need to: a copy of the body is put into the tree as the first part. -/
def noNeedSplit (b : Option KnvNode) (p : KnvProtocol) : KnvProtocol × ℤ :=
  match b, p.tree with
  | none, _ => (p, 0)
  | some _, none => p.fail (-1) "Bad protocol tree"
  | some b, some t =>
    match b.duplicate false with
    | .error e => p.fail (-2) ("Duplicate body failed: " ++ e.errmsg)
    | .ok c =>
      let o := c.setTag knvPkgPartTagBase
      match o.ret with
      | .error e => p.fail (-3) ("Change tag failed: " ++ e.errmsg)
      | .ok _ =>
        let o' := insertChild o.node true true {} t
        match o'.ret with
        | .error e => { p with tree := some o'.node }.fail (-4) ("Insert part body failed: " ++ e.errmsg)
        | .ok _ => ({ p with tree := some o'.node }, 0)

/-- The loop of `Split` that puts the pieces into the tree, from some index on. -/
def putParts (szPart nrPkgs : ℕ) (m : Bytes) : List ℕ → KnvProtocol → KnvProtocol × ℤ
  | [], p => (p, 0)
  | i :: is, p =>
    match p.tree with
    | none => p.fail (-1) "Bad protocol tree"
    | some t =>
      let len := if i = nrPkgs - 1 then m.length - (nrPkgs - 1) * szPart else szPart
      match KnvNode.new (partTag i) .string .varint none (some { str := (m.drop (i * szPart)).take len }) with
      | .error e => p.fail (-8) ("construct part body failed: " ++ e.errmsg)
      | .ok part =>
        let o := insertChild part true true {} (t.removeChildrenByTag (partTag i) {}).node
        match o.ret with
        | .error e => { p with tree := some o.node }.fail (-9) ("Insert part body failed: " ++ e.errmsg)
        | .ok _ => putParts szPart nrPkgs m is { p with tree := some o.node }

/-- `hdr_sz`: the header, and what is reserved for all that a part adds to it. -/
def hdrSz (h : KnvNode) : ℕ := h.evaluateSize.evalSz.toNat + 16

/-- `sz_part`: what is left of a packet for a piece. -/
def szPart (h : KnvNode) (p : KnvProtocol) : ℕ := p.getMaxPkgSize - hdrSz h

/-- `nr_pkgs`: the number of pieces of an encoding. -/
def nrPkgs (h : KnvNode) (m : Bytes) (p : KnvProtocol) : ℕ := (m.length + p.szPart h - 1) / p.szPart h

/-- `Split`, of a packet that has been encoded as `m`, and has the header `h`. -/
def splitEncoded (b : Option KnvNode) (m : Bytes) (h : KnvNode) (p : KnvProtocol) : KnvProtocol × ℤ :=
  let maxSz := p.getMaxPkgSize
  -- the real size is smaller than the evaluated size
  if m.length ≤ maxSz then p.noNeedSplit b
  else if maxSz ≤ hdrSz h then
    p.fail (-6) ("Header size(" ++ toString (hdrSz h) ++ ") is larger than max_pkg_size(" ++ toString maxSz ++ ")")
  else if p.nrPkgs h m ≤ 1 then p.noNeedSplit b
  else { p with totalSplitCount := UInt8.ofNat (p.nrPkgs h m) }.onHeader
    (setChild knvPkgHdrTotalSplitCount .varint { i64 := UInt64.ofNat (p.nrPkgs h m) }) fun q r =>
      match r with
      | .error e => q.fail (-7) ("Set total_split_count failed: " ++ e.errmsg)
      | .ok _ => putParts (p.szPart h) (p.nrPkgs h m) m (List.range (p.nrPkgs h m)) q

/-- What `Split` encodes: the packet with the body of the caller, or with its own. -/
def encodeToSplit (b : Option KnvNode) (p : KnvProtocol) : KnvProtocol × Except KnvErr Bytes :=
  match b with
  | some b => p.encodeWithBodyMem b
  | none => (p, p.encodeMem)

/-- What `Split` expects the size to be. -/
def curSize (b : Option KnvNode) (p : KnvProtocol) : ℕ :=
  match b with
  | some b => bodySize p.headerNode + b.evaluateSize.evalSz.toNat + 32
  | none => bodySize p.tree + 32

/-- Does `Split` expect that the packet has to be cut? -/
def mustSplit (b : Option KnvNode) (p : KnvProtocol) : Bool :=
  p.allowSplit && (b.isSome || p.body.isSome) && p.getMaxPkgSize < p.curSize b

/-- `Split`, of a packet without the fields of an earlier splitting. -/
def splitSized (b : Option KnvNode) (p : KnvProtocol) : KnvProtocol × ℤ :=
  if !p.mustSplit b then p.noNeedSplit b
  else match p.encodeToSplit b with
  | (p, .error e) => p.fail (-5) ("Encode failed: " ++ e.errmsg)
  | (p, .ok m) =>
    match p.headerNode with
    | none => p.fail (-1) "Bad protocol tree"
    | some h => p.splitEncoded b m h

/-- The packet without the fields of an earlier splitting, which should not be present in the network packets. -/
def unsplit (p : KnvProtocol) : KnvProtocol :=
  ({ p with totalSplitCount := 1 }.onHeader (removeChildrenByTag knvPkgHdrTotalSplitCount) fun p _ =>
    p.onHeader (removeChildrenByTag knvPkgHdrCurrSplitIndex) fun p _ => (p, 0)).1

/-- `Split(b)`. -/
def split (b : Option KnvNode) (p : KnvProtocol) : KnvProtocol × ℤ :=
  if !p.isValid then p.fail (-1) "Bad protocol tree" else p.unsplit.splitSized b

/-! ### Encoding a part -/

/-- `SetTag`, of the child at an address. -/
def setChildTag (a : ℕ) (tag : UInt32) (p : KnvProtocol) : KnvProtocol :=
  match p.tree.bind fun t => t.onChild a (fun _ c => c.setTag tag) {} with
  | some o => { p with tree := some o.node }
  | none => p

/-- `EncodeWithBody`, of the child at an address. -/
def encodeChild (a : ℕ) (p : KnvProtocol) : KnvProtocol × Except KnvErr Bytes :=
  match p.tree.bind fun t => childAt t a with
  | some b => p.encodeWithBodyMem b
  | none => (p, .error ⟨-1, ""⟩)

/-- `EncodePart` of a packet that is not split: the body that `Split` was given has its own tag while it is encoded. -/
def encodeWhole (t : KnvNode) (p : KnvProtocol) : KnvProtocol × Except KnvErr Bytes :=
  match t.findChildByTag knvPkgPartTagBase {} with
  | (t, some a) =>
    match ({ p with tree := some t }.setChildTag a knvPkgBdyTag).encodeChild a with
    | (p, r) => (p.setChildTag a knvPkgPartTagBase, r)
  | (t, none) => ({ p with tree := some t }, { p with tree := some t }.encodeMem)

/-- `EncodePart` of a packet that is split. -/
def encodePiece (index : ℤ) (t : KnvNode) (p : KnvProtocol) : KnvProtocol × Except KnvErr Bytes :=
  match t.findChildByTag (knvPkgPartTagBase + UInt32.ofInt index) {} with
  | (t, none) => ({ p with tree := some t, errmsg := "No such part" }, .error ⟨-2, "No such part"⟩)
  | (t, some a) =>
    match { p with tree := some t }.onHeader (setChild knvPkgHdrCurrSplitIndex .varint { i64 := UInt64.ofInt index })
      fun p r =>
        match r with
        | .error e => p.fail (-3) ("set header part index failed: " ++ e.errmsg)
        | .ok _ => (p, 0) with
    | (p, 0) => p.encodeChild a
    | (p, r) => (p, .error ⟨r, p.errmsg⟩)

/-- `EncodePart(index, mem)`. -/
def encodePart (index : ℤ) (p : KnvProtocol) : KnvProtocol × Except KnvErr Bytes :=
  match p.isValid, p.tree with
  | true, some t =>
    if (p.totalSplitCount.toNat : ℤ) ≤ index then
      ({ p with errmsg := "Bad part index" }, .error ⟨-1, "Bad part index"⟩)
    else if p.totalSplitCount = 1 then p.encodeWhole t
    else p.encodePiece index t
  | _, _ => ({ p with errmsg := "Protocol not initialized" }, .error ⟨-1, "Protocol not initialized"⟩)

end KnvProtocol

end KnvProto
