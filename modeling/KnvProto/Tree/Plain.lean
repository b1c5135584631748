import KnvProto.Codec.RoundTrip
import KnvProto.Tree.Shape

/-!
# The plain encoding of a tree

What a tree says, whatever its caches hold: the plain encoder writes a node from
its key, metas and children, and looks at a value only where there is nothing
below the node. The sizes recomputed bottom-up are the lengths it writes.

`serialize_of_exact`: where the cached sizes are those, and no inner node keeps a
value, `Serialize` writes the plain encoding, and exactly as many bytes as
`EvaluateSize` says.
-/

namespace KnvProto.KnvNode

/-- A field with the value a node has: the bytes of a string are given. -/
def fieldOf (n : KnvNode) (bs : Bytes) : PbField := ⟨n.tag, n.type, if n.type = .string then { str := bs } else n.val⟩

/-- The key field a node writes itself. -/
def keyField (n : KnvNode) : PbField := ⟨1, n.key.type, n.key.getValue⟩

/-- What a node writes of its key. -/
def keyBytes (n : KnvNode) : Bytes := if n.hasKey then n.keyField.encode else []

mutual

/-- The plain encoding of a node's value. -/
def plainVal : KnvNode → Bytes
  | ⟨d, ms, cs⟩ =>
    let n : KnvNode := ⟨d, ms, cs⟩
    if n.isFolded then d.val.str else n.keyBytes ++ plainAll n.hasKey ms ++ plainAll false cs

/-- The plain encodings of nodes, but a first one with tag 1 when the key has been written. -/
def plainAll (skipKey : Bool) : List KnvNode → Bytes
  | [] => []
  | n :: l => if skipKey && n.tag == 1 then plainAll false l else (n.fieldOf (plainVal n)).encode ++ plainAll false l

end

/-- The plain encoding of a node. -/
def plain (n : KnvNode) : Bytes := (n.fieldOf n.plainVal).encode

mutual

/-- The size of a node's value, recomputed from its key, metas and children. -/
def valSize : KnvNode → ℕ
  | ⟨d, ms, cs⟩ =>
    let n : KnvNode := ⟨d, ms, cs⟩
    if n.isFolded then (if d.type = .string then d.val.str.length else 0)
    else n.keyLength + sizeAll n.hasKey ms + sizeAll false cs

/-- The sizes of nodes, recomputed, but of a first one with tag 1 when the key has been counted. -/
def sizeAll (skipKey : Bool) : List KnvNode → ℕ
  | [] => 0
  | n :: l =>
    if skipKey && n.tag == 1 then sizeAll false l
    else pbEvalLength n.tag n.type n.val.i64 (valSize n) + sizeAll false l

end

/-- The size of a node with its header, recomputed. -/
def fullSize (n : KnvNode) : ℕ := pbEvalLength n.tag n.type n.val.i64 n.valSize

/-! ### Equations -/

theorem plainVal_of_folded {n : KnvNode} (h : n.isFolded = true) : n.plainVal = n.val.str := by
  obtain ⟨d, ms, cs⟩ := n
  rw [plainVal]
  exact if_pos h

theorem plainVal_of_not_folded {n : KnvNode} (h : n.isFolded = false) :
    n.plainVal = n.keyBytes ++ plainAll n.hasKey n.metalist ++ plainAll false n.childlist := by
  obtain ⟨d, ms, cs⟩ := n
  rw [plainVal]
  exact if_neg (by simp [h])

@[simp] theorem plainAll_nil (skipKey : Bool) : plainAll skipKey [] = [] := by rw [plainAll]

theorem plainAll_cons (skipKey : Bool) (n : KnvNode) (l : List KnvNode) :
    plainAll skipKey (n :: l) = if skipKey && n.tag == 1 then plainAll false l else n.plain ++ plainAll false l := by
  rw [plainAll, plain]

@[simp] theorem plainAll_false_cons (n : KnvNode) (l : List KnvNode) :
    plainAll false (n :: l) = n.plain ++ plainAll false l := by
  rw [plainAll_cons, Bool.false_and, if_neg Bool.false_ne_true]

theorem valSize_of_folded {n : KnvNode} (h : n.isFolded = true) :
    n.valSize = if n.type = .string then n.val.str.length else 0 := by
  obtain ⟨d, ms, cs⟩ := n
  rw [valSize]
  exact if_pos h

theorem valSize_of_not_folded {n : KnvNode} (h : n.isFolded = false) :
    n.valSize = n.keyLength + sizeAll n.hasKey n.metalist + sizeAll false n.childlist := by
  obtain ⟨d, ms, cs⟩ := n
  rw [valSize]
  exact if_neg (by simp [h])

@[simp] theorem sizeAll_nil (skipKey : Bool) : sizeAll skipKey [] = 0 := by rw [sizeAll]

theorem sizeAll_cons (skipKey : Bool) (n : KnvNode) (l : List KnvNode) :
    sizeAll skipKey (n :: l) = if skipKey && n.tag == 1 then sizeAll false l else n.fullSize + sizeAll false l := by
  rw [sizeAll, fullSize]

@[simp] theorem sizeAll_false (l : List KnvNode) : sizeAll false l = (l.map fullSize).sum := by
  induction l with
  | nil => simp
  | cons n l ih => rw [sizeAll_cons, Bool.false_and, if_neg Bool.false_ne_true, ih, List.map_cons, List.sum_cons]

theorem type_of_not_folded {n : KnvNode} (h : n.isFolded = false) : n.type = .string := by
  simp only [isFolded, Bool.or_eq_false_iff, bne_eq_false_iff_eq] at h
  exact h.1.1

theorem expanded_of_not_folded {n : KnvNode} (h : n.isFolded = false) : n.expanded = true := by
  simp only [isFolded, Bool.or_eq_false_iff, Bool.not_eq_false'] at h
  exact h.1.2

/-- The length of a number does not depend on the string beside it, nor the other way round. -/
theorem pbEvalLength_of_ne {tag : UInt32} {type : PbType} (h : type ≠ .string) (i64 : UInt64) (len len' : ℕ) :
    pbEvalLength tag type i64 len = pbEvalLength tag type i64 len' := by
  cases type <;> first | rfl | exact absurd rfl h

theorem pbEvalLength_string (tag : UInt32) (i64 i64' : UInt64) (len : ℕ) :
    pbEvalLength tag .string i64 len = pbEvalLength tag .string i64' len := rfl

theorem length_encode_fieldOf (n : KnvNode) (bs : Bytes) :
    (n.fieldOf bs).encode.length = pbEvalLength n.tag n.type n.val.i64 bs.length := by
  rw [fieldOf, ← pbEvalFieldLength_eq, pbEvalFieldLength]
  split
  · next h => rw [h]; rfl
  · next h => exact pbEvalLength_of_ne h ..

theorem length_keyBytes (n : KnvNode) : n.keyBytes.length = n.keyLength := by
  rw [keyBytes, keyLength]
  split
  · rw [keyField, ← pbEvalFieldLength_eq]
  · rfl

theorem length_plainAll_of {l : List KnvNode} (hl : ∀ x ∈ l, x.plain.length = x.fullSize) :
    ∀ skip, (plainAll skip l).length = sizeAll skip l := by
  induction l with
  | nil => intro skip; simp
  | cons x l ih =>
    intro skip
    have ih := ih (fun y hy => hl y (List.mem_cons_of_mem _ hy)) false
    rw [plainAll_cons, sizeAll_cons]
    split
    · exact ih
    · rw [List.length_append, hl x (List.mem_cons_self ..), ih]

theorem length_plainVal_of {n : KnvNode} (hms : ∀ x ∈ n.metalist, x.plain.length = x.fullSize)
    (hcs : ∀ x ∈ n.childlist, x.plain.length = x.fullSize) (ht : n.type = .string) :
    n.plainVal.length = n.valSize := by
  cases hf : n.isFolded with
  | true => rw [plainVal_of_folded hf, valSize_of_folded hf, if_pos ht]
  | false =>
    rw [plainVal_of_not_folded hf, valSize_of_not_folded hf, List.length_append, List.length_append,
      length_keyBytes, length_plainAll_of hms, length_plainAll_of hcs]

/-- **The sizes recomputed bottom-up are the lengths the plain encoder writes.** -/
theorem length_plain (n : KnvNode) : n.plain.length = n.fullSize := by
  induction n using induct with
  | h n hms hcs =>
    rw [plain, length_encode_fieldOf, fullSize]
    by_cases ht : n.type = .string
    · rw [length_plainVal_of hms hcs ht]
    · exact pbEvalLength_of_ne ht ..

theorem length_plainAll (skip : Bool) (l : List KnvNode) : (plainAll skip l).length = sizeAll skip l :=
  length_plainAll_of (fun x _ => length_plain x) skip

theorem length_plainVal {n : KnvNode} (ht : n.type = .string) : n.plainVal.length = n.valSize :=
  length_plainVal_of (fun x _ => length_plain x) (fun x _ => length_plain x) ht

/-! ### Serialization of exact trees -/

/-- The node may be written from what is below it: it is valid, its cached sizes are the recomputed
ones, and it keeps no value beside its nodes. -/
structure Exact (n : KnvNode) : Prop where
  valid : n.isValid = true
  evalSz : n.evalSz = n.fullSize
  evalValSz : n.evalValSz = n.valSize
  unclean : n.isFolded = false → n.isClean = false

theorem serializeAll_nil (ret : ℤ) (skipKey : Bool) (len : ℕ) (out : Bytes) :
    serializeAll ret skipKey [] len out = .ok out := by rw [serializeAll]

theorem serializeAll_cons (ret : ℤ) (skipKey : Bool) (n : KnvNode) (l : List KnvNode) (len : ℕ) (out : Bytes) :
    serializeAll ret skipKey (n :: l) len out =
      if skipKey && n.tag == 1 then serializeAll ret false l len out
      else match n.serialize (len - out.length) true with
        | .error e => .error ⟨ret, e.errmsg⟩
        | .ok bs => serializeAll ret false l len (out ++ bs) := by
  cases hs : n.serialize (len - out.length) true <;> simp only [serializeAll, hs]

/-- Nodes that write their plain encodings do so one after the other. -/
theorem serializeAll_plain (ret : ℤ) (len : ℕ) : ∀ (l : List KnvNode) (skipKey : Bool) (out : Bytes),
    (∀ x ∈ l, ∀ len, x.fullSize ≤ len → x.serialize len true = .ok x.plain) →
    out.length + sizeAll skipKey l ≤ len → serializeAll ret skipKey l len out = .ok (out ++ plainAll skipKey l) := by
  intro l
  induction l with
  | nil => intro skipKey out _ _; simp [serializeAll_nil]
  | cons x l ih =>
    intro skipKey out hl hlen
    have hl' := fun y hy => hl y (List.mem_cons_of_mem _ hy)
    rw [serializeAll_cons, plainAll_cons]
    rw [sizeAll_cons] at hlen
    split
    · next hskip =>
      rw [if_pos hskip] at hlen
      exact ih _ _ hl' hlen
    · next hskip =>
      rw [if_neg hskip] at hlen
      rw [hl x (List.mem_cons_self ..) _ (by omega)]
      simp only
      rw [ih _ _ hl' (by rw [List.length_append, length_plain]; omega), List.append_assoc]

theorem addKey_of_le {n : KnvNode} {b : PbBuff} (h : n.keyLength ≤ b.left) :
    ∃ left, n.addKey b = .ok ⟨b.out ++ n.keyBytes, left⟩ := by
  rw [← length_keyBytes] at h
  unfold addKey keyBytes at *
  split
  · next hk =>
    rw [if_pos hk, keyField] at h
    exact ⟨_, by rw [pbAddFieldVal_of_le h, ofFull, keyField]⟩
  · exact ⟨b.left, by rw [List.append_nil]⟩

/-- The header of an exact node, if it is asked for. -/
def headBytes (n : KnvNode) (withHeader : Bool) : Bytes := if withHeader then stringHead n.tag n.valSize else []

theorem addHead_of_le {n : KnvNode} {withHeader : Bool} {len : ℕ} (h : (n.headBytes withHeader).length ≤ len) :
    n.addHead withHeader n.valSize (pbInitBuff len) =
      .ok ⟨n.headBytes withHeader, len - (n.headBytes withHeader).length⟩ := by
  unfold addHead headBytes at *
  split
  · next hw =>
    rw [if_pos hw] at h
    rw [pbAddStringHead_of_le h, ofFull]
    simp [pbInitBuff]
  · simp [pbInitBuff]

/-- **An exact node is written in full when there is room for all of it.** -/
theorem serialize_inner {n : KnvNode} {len : ℕ} {withHeader : Bool} (h : Exact n) (hev : 0 ≤ n.evalSz)
    (hms : ∀ x ∈ n.metalist, ∀ len, x.fullSize ≤ len → x.serialize len true = .ok x.plain)
    (hcs : ∀ x ∈ n.childlist, ∀ len, x.fullSize ≤ len → x.serialize len true = .ok x.plain)
    (hf : n.isFolded = false) (hlen : (n.headBytes withHeader).length + n.valSize ≤ len) :
    n.serialize len withHeader = .ok (n.headBytes withHeader ++ n.plainVal) := by
  have htype := type_of_not_folded hf
  have hval := valSize_of_not_folded hf
  have heval := evaluateSize_of_nonneg hev
  obtain ⟨left, hkey⟩ := addKey_of_le (n := n)
    (b := ⟨n.headBytes withHeader, len - (n.headBytes withHeader).length⟩) (by simp only; omega)
  have hkeylen := length_keyBytes n
  have hmetas : serializeAll (-8) n.hasKey n.metalist len (n.headBytes withHeader ++ n.keyBytes) =
      .ok (n.headBytes withHeader ++ n.keyBytes ++ plainAll n.hasKey n.metalist) :=
    serializeAll_plain _ _ _ _ _ hms (by rw [List.length_append]; omega)
  have hchildren := serializeAll_plain (-9) len n.childlist false
    (n.headBytes withHeader ++ n.keyBytes ++ plainAll n.hasKey n.metalist) hcs
    (by rw [List.length_append, List.length_append, length_plainAll]; omega)
  have hall : n.headBytes withHeader ++ n.keyBytes ++ plainAll n.hasKey n.metalist ++ plainAll false n.childlist =
      n.headBytes withHeader ++ n.plainVal := by
    rw [plainVal_of_not_folded hf]
    simp only [List.append_assoc]
  have hsize : ((n.headBytes withHeader ++ n.plainVal).length : ℤ) =
      if withHeader then n.evalSz else n.evalValSz := by
    rw [List.length_append, length_plainVal htype, headBytes]
    cases withHeader
    · simp [h.evalValSz]
    · have hfull : n.fullSize = (stringHead n.tag n.valSize).length + n.valSize := by
        rw [← length_plain, plain, fieldOf, htype, if_pos rfl, encode_string, List.length_append, length_plainVal htype]
      simp only [if_true]
      rw [h.evalSz, hfull]
  have hnat : n.evalValSz.toNat = n.valSize := by rw [h.evalValSz, Int.toNat_natCast]
  rw [serialize_again h.valid (by simp [hf, h.unclean hf]), heval, hnat, addHead_of_le (by omega)]
  simp only [Except.bind]
  rw [hkey]
  simp only
  rw [hmetas]
  simp only
  rw [hchildren]
  simp only
  rw [hall, if_neg (not_not_intro hsize)]

/-- **Serialization of an exact tree**: with its header, into any buffer that is large enough. -/
theorem serialize_of_exact {n : KnvNode} (h : All Exact n) (hs : Shaped n) : ∀ len, n.fullSize ≤ len →
    n.serialize len true = .ok n.plain := by
  induction n using induct with
  | h n hms hcs =>
    intro len hlen
    have hn := h.here
    cases hf : n.isFolded with
    | true =>
      have henc : PbField.encode ⟨n.tag, n.type, n.val⟩ = n.plain := by
        rw [plain, plainVal_of_folded hf, fieldOf]
        split
        · next ht => rw [ht]; rfl
        · rfl
      rw [← length_plain, ← henc] at hlen
      have hadd := pbAddFieldVal_of_le (b := pbInitBuff len) hlen
      rw [serialize_value hn.valid (by simp [hf]), hadd, ← henc]
      simp [ofFull, pbInitBuff, Except.map]
    | false =>
      have htype := type_of_not_folded hf
      have hplain : n.plain = n.headBytes true ++ n.plainVal := by
        rw [plain, fieldOf, htype, if_pos rfl, encode_string, headBytes, if_pos rfl, length_plainVal htype]
      rw [hplain]
      rw [← length_plain, hplain, List.length_append, length_plainVal htype] at hlen
      exact serialize_inner hn hs.here.evaluated (fun x hx => hms x hx (h.metas x hx) (hs.metas x hx))
        (fun x hx => hcs x hx (h.children x hx) (hs.children x hx)) hf hlen

end KnvProto.KnvNode
