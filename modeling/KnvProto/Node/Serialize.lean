import KnvProto.Memory.SizeClass
import KnvProto.Node.Basic

/-!
# Sizes and serialization

`EvaluateSize`, the three forms of `Serialize`, `Fold` and `Duplicate`.

`Serialize` calls `EvaluateSize` on the nodes it writes; what that stores in a
node not evaluated yet is left out of its result here, since every node is
evaluated by `InitNode`.
-/

namespace KnvProto.KnvNode

open Memory

/-- Does the node write its key itself, before its metas? -/
def hasKey (n : KnvNode) : Bool := !n.noKey && n.key.bytes != []

/-- The length of the key field. -/
def keyLength (n : KnvNode) : ℕ := if n.hasKey then pbEvalFieldLength 1 n.key.type n.key.getValue else 0

/-- The metas that are written after the key: a first meta with tag 1 is the key again. -/
def metasAfterKey (hasKey : Bool) : List KnvNode → List KnvNode
  | m :: ms => if hasKey && m.tag == 1 then ms else m :: ms
  | [] => []

mutual

/-- `EvaluateSize`: the node with `eval_sz` and `eval_val_sz` filled in, here and below. -/
def evaluateSize : KnvNode → KnvNode
  | ⟨d, ms, cs⟩ =>
    let n : KnvNode := ⟨d, ms, cs⟩
    if 0 ≤ d.evalSz then n
    else if n.isFolded || n.isClean then
      { n with
        evalValSz := if d.type = .string then d.val.str.length else 0
        evalSz := pbEvalFieldLength d.tag d.type d.val }
    else
      let ms := evaluateMetas n.hasKey ms
      let cs := evaluateAll cs
      let evalValSz : ℤ := n.keyLength + ((metasAfterKey n.hasKey ms).map (·.evalSz)).sum + (cs.map (·.evalSz)).sum
      ⟨{ d with
          evalValSz := evalValSz
          evalSz := pbEvalLength d.tag d.type (UInt64.ofNat evalValSz.toNat) evalValSz.toNat }, ms, cs⟩

/-- `EvaluateSize` of every node of a list. -/
def evaluateAll : List KnvNode → List KnvNode
  | [] => []
  | n :: l => evaluateSize n :: evaluateAll l

/-- `EvaluateSize` of the metas, but the key. -/
def evaluateMetas (hasKey : Bool) : List KnvNode → List KnvNode
  | [] => []
  | m :: ms => (if hasKey && m.tag == 1 then m else evaluateSize m) :: evaluateAll ms

end

/-- A failure of the codec, under the return code of a caller. -/
def ofFull (ret : ℤ) : Except PbFull PbBuff → Except KnvErr PbBuff
  | .ok b => .ok b
  | .error e => .error ⟨ret, e.errmsg⟩

/-- The header of a node in `Serialize`: message tag, type and length. -/
def addHead (n : KnvNode) (withHeader : Bool) (size : ℕ) (b : PbBuff) : Except KnvErr PbBuff :=
  if withHeader then ofFull (-6) (pbAddStringHead b n.tag size) else .ok b

/-- The key in `Serialize`, which should be placed in the first place. -/
def addKey (n : KnvNode) (b : PbBuff) : Except KnvErr PbBuff :=
  if n.hasKey then ofFull (-7) (pbAddFieldVal b 1 n.key.type n.key.getValue) else .ok b

mutual

/-- `Serialize(buf, len, with_header)`: the bytes written into a buffer of `len` bytes. -/
def serialize : KnvNode → ℕ → Bool → Except KnvErr Bytes
  | ⟨d, ms, cs⟩, len, withHeader =>
    let n : KnvNode := ⟨d, ms, cs⟩
    if !n.isValid then .error ⟨-1, "node is invalid"⟩
    else if n.isFolded || n.isClean then
      if withHeader then (ofFull (-3) (pbAddFieldVal (pbInitBuff len) d.tag d.type d.val)).map (·.out)
      else if d.type ≠ .string then .error ⟨-5, "not support serializing value for non-message"⟩
      else if d.val.str.length < len then .ok d.val.str
      else .error ⟨-4, "not enoug space for value"⟩
    else
      let e := n.evaluateSize
      match (n.addHead withHeader e.evalValSz.toNat (pbInitBuff len)).bind n.addKey with
      | .error e => .error e
      | .ok b =>
        match serializeAll (-8) n.hasKey ms len b.out with
        | .error e => .error e
        | .ok out =>
          match serializeAll (-9) false cs len out with
          | .error e => .error e
          | .ok out =>
            if (out.length : ℤ) ≠ (if withHeader then e.evalSz else e.evalValSz) then
              .error ⟨-10, "Bug: eval size incorrect"⟩
            else .ok out

/-- The loops of `Serialize` over metas and children: every node is written with its header
after the bytes written so far, but a first meta with tag 1 when the key has been written. -/
def serializeAll (ret : ℤ) (skipKey : Bool) : List KnvNode → ℕ → Bytes → Except KnvErr Bytes
  | [], _, out => .ok out
  | n :: l, len, out =>
    if skipKey && n.tag == 1 then serializeAll ret false l len out
    else
      match serialize n (len - out.length) true with
      | .error e => .error ⟨ret, e.errmsg⟩
      | .ok bs => serializeAll ret false l len (out ++ bs)

end

/-- `Serialize` of a leaf or a clean node. -/
theorem serialize_value {n : KnvNode} (hv : n.isValid = true) (hf : (n.isFolded || n.isClean) = true) (len : ℕ) :
    n.serialize len true = (ofFull (-3) (pbAddFieldVal (pbInitBuff len) n.tag n.type n.val)).map (·.out) := by
  obtain ⟨d, ms, cs⟩ := n
  rw [serialize, if_neg (by simp [hv]), if_pos hf, if_pos rfl]

/-- `Serialize` of a node that has to be written again. -/
theorem serialize_again {n : KnvNode} (hv : n.isValid = true) (hf : (n.isFolded || n.isClean) = false) (len : ℕ)
    (withHeader : Bool) :
    n.serialize len withHeader =
      match (n.addHead withHeader n.evaluateSize.evalValSz.toNat (pbInitBuff len)).bind n.addKey with
      | .error e => .error e
      | .ok b =>
        match serializeAll (-8) n.hasKey n.metalist len b.out with
        | .error e => .error e
        | .ok out =>
          match serializeAll (-9) false n.childlist len out with
          | .error e => .error e
          | .ok out =>
            if (out.length : ℤ) ≠ (if withHeader then n.evaluateSize.evalSz else n.evaluateSize.evalValSz) then
              .error ⟨-10, "Bug: eval size incorrect"⟩
            else .ok out := by
  obtain ⟨d, ms, cs⟩ := n
  rw [serialize, if_neg (by simp [hv]), if_neg (by simp [hf])]

/-- `Serialize(string &out)`. -/
def serializeStr (n : KnvNode) : Except KnvErr Bytes :=
  let evalLen := n.evaluateSize.evalSz
  match n.serialize evalLen.toNat true with
  | .error e => .error ⟨-2, e.errmsg⟩
  | .ok out => if evalLen ≠ out.length then .error ⟨-3, "bug: eval size differ from pack size"⟩ else .ok out

/-- `Fold`: a node that was written to below becomes its serialized value again. -/
def fold (n : KnvNode) : KnvNode × Except KnvErr Unit :=
  if !n.isValid then (n, .error ⟨-1, "node is invalid"⟩)
  else if n.isFolded || n.isClean then (n, .ok ())
  else
    let n := n.evaluateSize
    match n.serialize (allocSize n.evalSz.toNat) false with
    | .error e => (n, .error ⟨-3, e.errmsg⟩)
    | .ok out =>
      if n.evalValSz ≠ out.length then (n, .error ⟨-4, "bug: eval size differ from pack size"⟩)
      else ({ n with
        val := { str := out }
        subnodeDirty := false
        expanded := false
        metalist := []
        childlist := [] }, .ok ())

/-- `GetValue`. -/
def getValue (n : KnvNode) : KnvNode × Except KnvErr PbVal :=
  let (n, r) := n.fold
  (n, r.map fun _ => n.val)

/-- `InnerDuplicate`: an expanded node without a value is serialized to get it. -/
def innerDuplicate (n : KnvNode) (forceNoKey : Bool) : Except KnvErr KnvNode :=
  if n.type = .string ∧ n.val.str = [] ∧ n.expanded then
    let n := n.evaluateSize
    match n.serialize (allocSize n.evalSz.toNat) false with
    | .error e => .error e
    | .ok out =>
      if n.evalValSz ≠ out.length then .error ⟨-1, "bug: eval size differ from pack size"⟩
      else .ok (initNode n.tag n.type (some { str := out }) true n.evalSz.toNat forceNoKey)
  else .ok (initNode n.tag n.type (some n.val) true n.evalSz.toNat forceNoKey)

/-- `Duplicate(own_buf)`: with `own_buf` the bytes go to the copy's own buffer; they are the same. -/
def duplicate (_ownBuf : Bool) (n : KnvNode) : Except KnvErr KnvNode :=
  if !n.isValid then .error ⟨-1, "Invalid node"⟩ else n.innerDuplicate false

end KnvProto.KnvNode
