import KnvProto.Packet.Lookup

/-!
# Replies

`Encode` with a return code, a message and a body of the caller, `GetBody`, and what
the two say of each other.

## The model

The first thing `Encode` does is to write the return code and the message into the
header, where they differ from what the header has. What it does then is the same
for every body; without one it is `encodeHeader`.
-/

namespace KnvProto

namespace KnvProtocol

open KnvNode

/-! ### The current body -/

/-- The node that `body` points to. -/
def bodyNode (p : KnvProtocol) : Option KnvNode := p.body.bind fun
  | .child a => p.tree.bind fun t => childAt t a
  | .other b => some b

/-- `GetBody`. -/
def getBody (p : KnvProtocol) : Option KnvNode := if p.isValid then p.bodyNode.filter (·.isValid) else none

/-! ### Encoding -/

/-- `SetRetCode`. -/
def setRetCode (newRetcode : UInt32) (p : KnvProtocol) : KnvProtocol × ℤ :=
  p.setHeaderIntField knvPkgHdrRetTag newRetcode.toUInt64

/-- What `Encode` writes into the header before it encodes: `err` of no bytes is no message. -/
def setReply (ret : UInt32) (err : Bytes) (p : KnvProtocol) : KnvProtocol × ℤ :=
  if !p.isValid then (p, -1)
  else
    let r := if ret ≠ p.retcode then p.setRetCode ret else (p, 0)
    if r.2 ≠ 0 then r.1.fail (-2) ("Set retcode failed: " ++ r.1.errmsg)
    else
      let r := if err ≠ r.1.retmsg then r.1.setRetErrorMsg err else (r.1, 0)
      if r.2 ≠ 0 then r.1.fail (-3) ("Set ret msg failed: " ++ r.1.errmsg) else (r.1, 0)

/-- What `EvaluateSize` says of a body that may be missing. -/
def bodySize (body : Option KnvNode) : ℕ := match body with
  | some b => b.evaluateSize.evalSz.toNat
  | none => 0

/-- A body is written after what there is. -/
def appendBody (body : Option KnvNode) (totalSz : ℕ) (out : Bytes) : Except KnvErr Bytes :=
  match body with
  | some b => if b.evaluateSize.evalSz.toNat = 0 then .ok out else
    match b.serialize (totalSz - out.length) true with
    | .error e => .error ⟨-10, "serializing body failed: " ++ e.errmsg⟩
    | .ok bs => .ok (out ++ bs)
  | none => .ok out

/-- Tag, length, header and body. -/
def pack (h : KnvNode) (body : Option KnvNode) : Except KnvErr Bytes :=
  let totalValSz := h.evaluateSize.evalSz.toNat + bodySize body
  let totalSz := pbEvalLength knvPkgTag .string 0 totalValSz
  match pbAddStringHead (pbInitBuff totalSz) knvPkgTag totalValSz with
  | .error e => .error ⟨-8, "knv_add_string_head failed: " ++ e.errmsg⟩
  | .ok b =>
    match h.serialize (totalSz - b.out.length) true with
    | .error e => .error ⟨-9, "serializing header failed: " ++ e.errmsg⟩
    | .ok out =>
      match appendBody body totalSz (b.out ++ out) with
      | .error e => .error e
      | .ok out => .ok (out ++ List.replicate (totalSz - out.length) 0)

/-- `Encode(ret, err, errlen, body_tree)`. -/
def encodeWith (ret : UInt32) (err : Bytes) (body : Option KnvNode) (p : KnvProtocol) : KnvProtocol × Except KnvErr Bytes :=
  match p.setReply ret err with
  | (p, 0) =>
    match p.headerNode with
    | none => (p, .error ⟨-1, ""⟩)
    | some h =>
      match pack h body with
      | .error e => ({ p with errmsg := e.errmsg }, .error e)
      | .ok out => (p, .ok out)
  | (p, r) => (p, .error ⟨r, p.errmsg⟩)

/-- `EncodeWithBody`. -/
def encodeWithBody (b : KnvNode) (p : KnvProtocol) : KnvProtocol × Except KnvErr Bytes := p.encodeWith 0 [] (some b)

/-- Without a body it is the header that is encoded. -/
theorem pack_none {p : KnvProtocol} {h : KnvNode} (hv : p.isValid = true) (hh : p.headerNode = some h) :
    p.encodeHeader.toOption = (pack h none).toOption := by
  rw [encodeHeader, hv, hh]
  simp only [pack, bodySize, Nat.add_zero]
  cases pbAddStringHead (pbInitBuff (pbEvalLength knvPkgTag .string 0 h.evaluateSize.evalSz.toNat)) knvPkgTag
      h.evaluateSize.evalSz.toNat with
  | error e => simp only [Except.toOption]
  | ok b =>
    simp only
    cases h.serialize (pbEvalLength knvPkgTag .string 0 h.evaluateSize.evalSz.toNat - b.out.length) true with
    | error e => simp only [Except.toOption]
    | ok out => simp only [appendBody, List.length_append, Nat.sub_sub]

end KnvProtocol

end KnvProto
