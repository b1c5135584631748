import KnvProto.Tree.Cached
import KnvProto.Tree.Index

/-!
# Copies

`Duplicate` takes the value of a node when there is one, whether the node is clean
or not, and writes the node again only when there is none. `Serialize` and `Fold`
write a node again when it is dirty. The two agree but on a node that is dirty and
still has a value, which `SetTag` leaves behind: its copy says what the node said
when it was last clean (`duplicate_of_run`).
-/

namespace KnvProto

open PathEdit Memory

namespace KnvNode

/-! ### Room -/

/-- A field that has been added fitted, and fits any larger buffer. -/
theorem pbAddFieldVal_iff {b b' : PbBuff} {tag : UInt32} {type : PbType} {val : PbVal} :
    pbAddFieldVal b tag type val = .ok b' ↔ (PbField.encode ⟨tag, type, val⟩).length ≤ b.left ∧
      b' = ⟨b.out ++ PbField.encode ⟨tag, type, val⟩, b.left - (PbField.encode ⟨tag, type, val⟩).length⟩ := by
  by_cases hlen : (PbField.encode ⟨tag, type, val⟩).length ≤ b.left
  · rw [pbAddFieldVal_of_le hlen, Except.ok.injEq, eq_comm]
    simp [hlen]
  · obtain ⟨e, he⟩ := pbAddFieldVal_of_lt (Nat.lt_of_not_le hlen)
    rw [he]
    simp [hlen]

theorem pbAdd_iff {b b' : PbBuff} {bs : Bytes} :
    pbAdd b bs = .ok b' ↔ bs.length ≤ b.left ∧ b' = ⟨b.out ++ bs, b.left - bs.length⟩ := by
  by_cases hlen : bs.length ≤ b.left
  · rw [pbAdd_of_le hlen, Except.ok.injEq, eq_comm]
    simp [hlen]
  · rw [pbAdd, if_pos (Nat.lt_of_not_le hlen)]
    simp [hlen]

/-- The header `Serialize` writes. -/
def head (n : KnvNode) (withHeader : Bool) : Bytes :=
  if withHeader then stringHead n.tag n.evaluateSize.evalValSz.toNat else []

theorem addHead_iff {n : KnvNode} {withHeader : Bool} {len : ℕ} {b : PbBuff} :
    n.addHead withHeader n.evaluateSize.evalValSz.toNat (pbInitBuff len) = .ok b ↔
      (n.head withHeader).length ≤ len ∧ b = ⟨n.head withHeader, len - (n.head withHeader).length⟩ := by
  unfold addHead head
  split
  swap
  · rw [Except.ok.injEq, eq_comm]
    simp [pbInitBuff]
  · constructor
    · intro h
      have h' := of_ofFull h
      unfold pbAddStringHead at h'
      cases htag : pbAddTag (pbInitBuff len) .string n.tag with
      | error e => rw [htag] at h'; cases h'
      | ok b₁ =>
        rw [htag] at h'
        obtain ⟨hlen₁, rfl⟩ := pbAdd_iff.mp htag
        obtain ⟨hlen₂, rfl⟩ := pbAdd_iff.mp h'
        simp only [pbInitBuff, stringHead, List.length_append, List.nil_append, Nat.sub_sub] at hlen₁ hlen₂ ⊢
        exact ⟨by omega, trivial⟩
    · rintro ⟨hlen, rfl⟩
      rw [pbAddStringHead_of_le (b := pbInitBuff len) hlen, ofFull]
      rfl

theorem addKey_iff {n : KnvNode} {b b' : PbBuff} : n.addKey b = .ok b' ↔
    n.keyBytes.length ≤ b.left ∧ b' = ⟨b.out ++ n.keyBytes, b.left - n.keyBytes.length⟩ := by
  unfold addKey keyBytes
  split
  swap
  · rw [Except.ok.injEq, eq_comm]
    simp
  · rw [keyField, ← pbAddFieldVal_iff]
    constructor
    · exact of_ofFull
    · intro h
      rw [h, ofFull]

/-- What a node was written as fitted, and is what it is written as where there is more room. -/
def Roomy (n : KnvNode) : Prop := ∀ len withHeader out, n.serialize len withHeader = .ok out →
  out.length ≤ len ∧ ∀ len', len ≤ len' → n.serialize len' withHeader = .ok out

theorem serializeAll_room {ret : ℤ} {len : ℕ} : ∀ {l : List KnvNode} {skipKey : Bool} {out out' : Bytes},
    (∀ x ∈ l, Roomy x) → out.length ≤ len → serializeAll ret skipKey l len out = .ok out' →
    ∃ bs, out' = out ++ bs ∧ out'.length ≤ len ∧ ∀ len₁ out₁, out₁.length + (len - out.length) ≤ len₁ →
      serializeAll ret skipKey l len₁ out₁ = .ok (out₁ ++ bs) := by
  intro l
  induction l with
  | nil =>
    intro skipKey out out' _ hlen h
    rw [serializeAll_nil] at h
    cases h
    exact ⟨[], by simp, hlen, fun _ _ _ => by rw [serializeAll_nil, List.append_nil]⟩
  | cons x l ih =>
    intro skipKey out out' hl hlen h
    have hl' := fun y hy => hl y (List.mem_cons_of_mem _ hy)
    rw [serializeAll_cons] at h
    split at h
    · next hskip =>
      obtain ⟨bs, hout, hle, hmore⟩ := ih hl' hlen h
      refine ⟨bs, hout, hle, fun len₁ out₁ hlen₁ => ?_⟩
      rw [serializeAll_cons, if_pos hskip]
      exact hmore len₁ out₁ hlen₁
    · next hskip =>
      split at h
      · cases h
      next bx hbx =>
      obtain ⟨hfit, hroom⟩ := hl x (List.mem_cons_self ..) _ _ _ hbx
      have hlen' : (out ++ bx).length ≤ len := by
        rw [List.length_append]
        omega
      obtain ⟨bs, hout, hle, hmore⟩ := ih hl' hlen' h
      refine ⟨bx ++ bs, by rw [hout, List.append_assoc], hle, fun len₁ out₁ hlen₁ => ?_⟩
      rw [serializeAll_cons, if_neg hskip, hroom _ (by omega)]
      simp only
      rw [List.length_append] at hlen'
      rw [hmore len₁ (out₁ ++ bx) (by rw [List.length_append, List.length_append]; omega), List.append_assoc]

theorem valid_of_serialize {n : KnvNode} {len : ℕ} {withHeader : Bool} {out : Bytes}
    (h : n.serialize len withHeader = .ok out) : n.isValid = true := by
  by_contra hv
  obtain ⟨d, ms, cs⟩ := n
  rw [serialize, if_pos (by simpa using hv)] at h
  cases h

/-- **A node that was written again** was written as a header and a body, and is so with another header, too, where
there is room for it and the cached size fits. -/
theorem serialize_body {n : KnvNode} (hms : ∀ x ∈ n.metalist, Roomy x) (hcs : ∀ x ∈ n.childlist, Roomy x) {len : ℕ}
    {withHeader : Bool} {out : Bytes} (hf : (n.isFolded || n.isClean) = false) (h : n.serialize len withHeader = .ok out) :
    ∃ bs, out = n.head withHeader ++ bs ∧ out.length ≤ len ∧
      (out.length : ℤ) = (if withHeader then n.evaluateSize.evalSz else n.evaluateSize.evalValSz) ∧
      ∀ wh len', (n.head wh).length + (len - (n.head withHeader).length) ≤ len' →
        ((n.head wh ++ bs).length : ℤ) = (if wh then n.evaluateSize.evalSz else n.evaluateSize.evalValSz) →
        n.serialize len' wh = .ok (n.head wh ++ bs) := by
  have hv := valid_of_serialize h
  rw [serialize_again hv hf] at h
  split at h
  · cases h
  next b hb =>
  cases hhead : n.addHead withHeader n.evaluateSize.evalValSz.toNat (pbInitBuff len) with
  | error e => rw [hhead] at hb; cases hb
  | ok b₁ =>
    rw [hhead] at hb
    obtain ⟨hlen₁, rfl⟩ := addHead_iff.mp hhead
    obtain ⟨hlen₂, rfl⟩ := addKey_iff.mp (show n.addKey _ = .ok b from hb)
    simp only at h hlen₂
    split at h
    · cases h
    next out₁ hm =>
    obtain ⟨bm, rfl, hle₁, hmetas⟩ := serializeAll_room hms (by rw [List.length_append]; omega) hm
    split at h
    · cases h
    next out₂ hc =>
    obtain ⟨bc, rfl, hle₂, hchildren⟩ := serializeAll_room hcs hle₁ hc
    by_cases hsize : ((n.head withHeader ++ n.keyBytes ++ bm ++ bc).length : ℤ) =
        if withHeader then n.evaluateSize.evalSz else n.evaluateSize.evalValSz
    swap
    · rw [if_pos hsize] at h
      cases h
    rw [if_neg (not_not_intro hsize)] at h
    cases h
    refine ⟨n.keyBytes ++ bm ++ bc, by simp only [List.append_assoc], hle₂, hsize, fun wh len' hlen' hsize' => ?_⟩
    simp only [List.length_append] at hle₁ hle₂ hlen₁ hlen₂ hlen'
    have hhead' : n.addHead wh n.evaluateSize.evalValSz.toNat (pbInitBuff len') =
        .ok ⟨n.head wh, len' - (n.head wh).length⟩ := addHead_iff.mpr ⟨by omega, rfl⟩
    have hkey' : n.addKey ⟨n.head wh, len' - (n.head wh).length⟩ =
        .ok ⟨n.head wh ++ n.keyBytes, len' - (n.head wh).length - n.keyBytes.length⟩ :=
      addKey_iff.mpr ⟨by simp only; omega, rfl⟩
    rw [serialize_again hv hf, hhead']
    simp only [Except.bind]
    rw [hkey']
    simp only
    rw [hmetas len' _ (by simp only [List.length_append]; omega)]
    simp only
    rw [hchildren len' _ (by simp only [List.length_append]; omega)]
    simp only
    have hout : n.head wh ++ n.keyBytes ++ bm ++ bc = n.head wh ++ (n.keyBytes ++ bm ++ bc) := by
      simp only [List.append_assoc]
    rw [hout, if_neg (not_not_intro hsize')]

/-- When a leaf or a clean node is written, and what. -/
theorem serialize_value_iff {n : KnvNode} (hv : n.isValid = true) (hf : (n.isFolded || n.isClean) = true) {len : ℕ}
    {out : Bytes} : n.serialize len true = .ok out ↔
      (PbField.encode ⟨n.tag, n.type, n.val⟩).length ≤ len ∧ out = PbField.encode ⟨n.tag, n.type, n.val⟩ := by
  rw [serialize_value hv hf]
  cases hadd : pbAddFieldVal (pbInitBuff len) n.tag n.type n.val with
  | error e =>
    simp only [ofFull, Except.map, reduceCtorEq, false_iff, not_and]
    intro hlen
    rw [pbAddFieldVal_of_le (b := pbInitBuff len) hlen] at hadd
    cases hadd
  | ok b =>
    obtain ⟨hlen, rfl⟩ := pbAddFieldVal_iff.mp hadd
    simp only [ofFull, Except.map, pbInitBuff, List.nil_append, Except.ok.injEq] at hlen ⊢
    exact ⟨fun he => ⟨hlen, he.symm⟩, fun he => he.2.symm⟩

/-- The same without the header. -/
theorem serialize_valueOnly_iff {n : KnvNode} (hv : n.isValid = true) (hf : (n.isFolded || n.isClean) = true) {len : ℕ}
    {out : Bytes} : n.serialize len false = .ok out ↔ n.type = .string ∧ n.val.str.length < len ∧ out = n.val.str := by
  obtain ⟨d, ms, cs⟩ := n
  rw [serialize, if_neg (by simp [hv]), if_pos hf, if_neg Bool.false_ne_true]
  by_cases ht : d.type = .string
  · simp only [ht, ne_eq, not_true_eq_false, if_false, true_and]
    split
    · next hlen => simp [hlen, eq_comm]
    · next hlen => simp [hlen]
  · simp [ht]

/-- **Room does no harm.** -/
theorem roomy (n : KnvNode) : Roomy n := by
  induction n using induct with
  | h n hms hcs =>
    intro len withHeader out h
    cases hf : (n.isFolded || n.isClean) with
    | false =>
      obtain ⟨bs, rfl, hle, hsize, hmore⟩ := serialize_body hms hcs hf h
      exact ⟨hle, fun len' hlen' => hmore _ _ (by rw [List.length_append] at hle; omega) hsize⟩
    | true =>
      have hv := valid_of_serialize h
      cases withHeader with
      | true =>
        obtain ⟨hlen, rfl⟩ := (serialize_value_iff hv hf).mp h
        exact ⟨hlen, fun len' hlen' => (serialize_value_iff hv hf).mpr ⟨by omega, rfl⟩⟩
      | false =>
        obtain ⟨ht, hlen, rfl⟩ := (serialize_valueOnly_iff hv hf).mp h
        exact ⟨by omega, fun len' hlen' => (serialize_valueOnly_iff hv hf).mpr ⟨ht, by omega, rfl⟩⟩

/-! ### Copies of one node -/

theorem serializeStr_iff {n : KnvNode} (hev : 0 ≤ n.evalSz) {out : Bytes} :
    n.serializeStr = .ok out ↔ n.evalSz = out.length ∧ n.serialize out.length true = .ok out := by
  unfold serializeStr
  rw [evaluateSize_of_nonneg hev]
  simp only
  constructor
  · intro h
    split at h
    · cases h
    next out' hser =>
    split at h
    · cases h
    next hlen =>
    cases h
    have hlen' := not_not.mp hlen
    rw [hlen', Int.toNat_natCast] at hser
    exact ⟨hlen', hser⟩
  · rintro ⟨hlen, hser⟩
    rw [hlen, Int.toNat_natCast, hser]
    simp

theorem encode_pick (tag : UInt32) (type : PbType) (v : PbVal) :
    PbField.encode ⟨tag, type, v.pick type⟩ = PbField.encode ⟨tag, type, v⟩ := by
  cases type <;> rfl

theorem evalSz_copy {n : KnvNode} (hev : 0 < n.evalSz) (v : PbVal) (k : Bool) :
    (initNode n.tag n.type (some v) true n.evalSz.toNat k).evalSz = n.evalSz := by
  have hpos : 0 < n.evalSz.toNat := by omega
  simp only [initNode, if_true, if_pos hpos]
  omega

/-- What a copy with the value `v` is written as. -/
theorem serializeStr_copy {n : KnvNode} (hv : n.isValid = true) (hev : 0 < n.evalSz) (v : PbVal) (k : Bool) {out : Bytes} :
    (initNode n.tag n.type (some v) true n.evalSz.toNat k).serializeStr = .ok out ↔
      out = PbField.encode ⟨n.tag, n.type, v⟩ ∧ n.evalSz = out.length := by
  have hsz := evalSz_copy hev v k
  have hfold := isFolded_initNode n.tag n.type (some v) true n.evalSz.toNat k
  have hfields : (initNode n.tag n.type (some v) true n.evalSz.toNat k).tag = n.tag ∧
      (initNode n.tag n.type (some v) true n.evalSz.toNat k).type = n.type ∧
      (initNode n.tag n.type (some v) true n.evalSz.toNat k).val = v.pick n.type := ⟨rfl, rfl, rfl⟩
  generalize initNode n.tag n.type (some v) true n.evalSz.toNat k = d at *
  obtain ⟨htag, htype, hval⟩ := hfields
  have hv' : d.isValid = true := by
    rw [isValid, htag]
    exact hv
  rw [serializeStr_iff (by omega), serialize_value_iff hv' (by rw [hfold, Bool.true_or]), hsz, hval, htag, htype,
    encode_pick]
  constructor
  · rintro ⟨hlen, -, hout⟩
    exact ⟨hout, hlen⟩
  · rintro ⟨rfl, hlen⟩
    exact ⟨hlen, Nat.le_refl _, rfl⟩

/-- The copy of a node says what the node says: the same bytes, of the same size; and the node is as it was. -/
def CopyFaithful (n : KnvNode) : Prop := ∀ ownBuf, ∃ d out, n.duplicate ownBuf = .ok d ∧ d.serializeStr = .ok out ∧
  n.serializeStr = .ok out ∧ d.evaluateSize.evalSz = n.evaluateSize.evalSz ∧ n.evaluateSize = n

/-- A node with nodes below it that is dirty and still has a value: what `SetTag` leaves. -/
def Retagged (n : KnvNode) : Prop := n.isFolded = false ∧ n.subnodeDirty = true ∧ n.val.str ≠ []

/-- A string that is expanded and has no value: it is written again for its copy. -/
def Emptied (n : KnvNode) : Prop := n.type = .string ∧ n.val.str = [] ∧ n.expanded = true

/-- What a faithful copy takes. -/
structure Copyable (n : KnvNode) : Prop where
  /-- The node can be written. -/
  written : ∃ out, n.serializeStr = .ok out
  /-- What is written again fits a block of the memory pool. -/
  block : Emptied n → n.evalSz ≤ biggestMagic
  /-- Its two sizes fit each other. -/
  sizes : Emptied n → 0 ≤ n.evalValSz ∧ n.evalSz = pbEvalLength n.tag .string 0 n.evalValSz.toNat
  /-- A value that is still there is the one that is written. -/
  fresh : Retagged n → n.serializeStr = .ok (PbField.encode ⟨n.tag, n.type, n.val⟩)

theorem innerDuplicate_emptied {n : KnvNode} (hev : 0 ≤ n.evalSz) (h : Emptied n) :
    n.innerDuplicate false = match n.serialize (allocSize n.evalSz.toNat) false with
      | .error e => .error e
      | .ok out =>
        if n.evalValSz ≠ out.length then .error ⟨-1, "bug: eval size differ from pack size"⟩
        else .ok (initNode n.tag n.type (some { str := out }) true n.evalSz.toNat false) := by
  unfold innerDuplicate
  have heval := evaluateSize_of_nonneg hev
  rw [heval]
  exact if_pos h

theorem innerDuplicate_value {n : KnvNode} (h : ¬Emptied n) :
    n.innerDuplicate false = .ok (initNode n.tag n.type (some n.val) true n.evalSz.toNat false) := by
  unfold innerDuplicate
  exact if_neg h

theorem pbEvalLength_string_eq (tag : UInt32) (v : PbVal) :
    pbEvalLength tag .string 0 v.str.length = (PbField.encode ⟨tag, .string, v⟩).length := by
  rw [← pbEvalFieldLength_eq]
  rfl

/-- A node without a value is copied faithfully when it can be written and its sizes fit. -/
theorem duplicate_emptied {n : KnvNode} (hev : 0 ≤ n.evalSz) (he : Emptied n) (hblock : n.evalSz ≤ biggestMagic)
    (hpos : 0 ≤ n.evalValSz) (hsize : n.evalSz = pbEvalLength n.tag .string 0 n.evalValSz.toNat) {out : Bytes}
    (hout : n.serializeStr = .ok out) : ∃ v : PbVal, out = PbField.encode ⟨n.tag, n.type, v⟩ ∧
      n.innerDuplicate false = .ok (initNode n.tag n.type (some v) true n.evalSz.toNat false) := by
  obtain ⟨hlen, hser⟩ := (serializeStr_iff hev).mp hout
  have hv := valid_of_serialize hser
  have halloc : n.evalSz.toNat ≤ allocSize n.evalSz.toNat := le_allocSize (by omega)
  have hgt : 0 < n.evalSz := by
    have := pbEvalLength_pos n.tag .string 0 n.evalValSz.toNat
    omega
  obtain ⟨ht, hnil, hexp⟩ := he
  rw [innerDuplicate_emptied hev ⟨ht, hnil, hexp⟩]
  cases hf : (n.isFolded || n.isClean) with
  | true =>
    -- nothing is below it, and its size is that of nothing
    obtain ⟨-, rfl⟩ := (serialize_value_iff hv hf).mp hser
    have hzero : n.evalValSz = 0 := by
      rw [ht] at hlen
      rw [← pbEvalLength_string_eq, hnil, List.length_nil, hsize, pbEvalLength_eq_stringHead,
        pbEvalLength_eq_stringHead] at hlen
      have h0 : (pbVint (UInt64.ofNat 0)).length = 1 := by decide
      have hle := pbEvalVintLength_pos (UInt64.ofNat n.evalValSz.toNat)
      rw [pbEvalVintLength_eq] at hle
      simp only [stringHead, List.length_append, h0] at hlen
      omega
    have hempty : n.serialize (allocSize n.evalSz.toNat) false = .ok [] := by
      rw [serialize_valueOnly_iff hv hf, hnil]
      exact ⟨ht, by simp only [List.length_nil]; omega, rfl⟩
    refine ⟨{ str := [] }, ?_, ?_⟩
    · simp only [ht, PbField.encode, payload, hnil]
    · rw [hempty, hzero]
      rfl
  | false =>
    obtain ⟨bs, rfl, -, hsz, hmore⟩ := serialize_body (fun x _ => roomy x) (fun x _ => roomy x) hf hser
    rw [evaluateSize_of_nonneg hev] at hsz hmore
    have hhead : n.head true = stringHead n.tag n.evalValSz.toNat := by
      rw [head, if_pos rfl, evaluateSize_of_nonneg hev]
    have hbody : n.evalValSz = bs.length := by
      rw [if_pos rfl, List.length_append, hhead, hsize, pbEvalLength_eq_stringHead] at hsz
      omega
    have hagain := hmore false (allocSize n.evalSz.toNat) (by
      rw [head, if_neg Bool.false_ne_true, List.length_nil]
      omega) (by
      rw [head, if_neg Bool.false_ne_true, if_neg Bool.false_ne_true, List.nil_append, hbody])
    rw [head, if_neg Bool.false_ne_true, List.nil_append] at hagain
    refine ⟨{ str := bs }, ?_, ?_⟩
    · rw [hhead, hbody, Int.toNat_natCast, ht, encode_string]
    · rw [hagain]
      simp only
      rw [if_neg (not_not_intro hbody)]

theorem length_serialize_pos {n : KnvNode} {len : ℕ} {out : Bytes} (h : n.serialize len true = .ok out) :
    0 < out.length := by
  have hv := valid_of_serialize h
  cases hf : (n.isFolded || n.isClean) with
  | true =>
    obtain ⟨-, rfl⟩ := (serialize_value_iff hv hf).mp h
    exact length_encode_pos' _
  | false =>
    obtain ⟨bs, rfl, -⟩ := serialize_body (fun x _ => roomy x) (fun x _ => roomy x) hf h
    have hpos := pbEvalVintLength_pos (pbTagWord .string n.tag)
    rw [pbEvalVintLength_eq] at hpos
    rw [head, if_pos rfl, stringHead, List.length_append, List.length_append]
    omega

/-- A copy that is written as the node is takes all of this. -/
theorem copyable_of_same {n d : KnvNode} {ownBuf : Bool} {out : Bytes} (hev : 0 ≤ n.evalSz)
    (hd : n.duplicate ownBuf = .ok d) (hdout : d.serializeStr = .ok out) (hout : n.serializeStr = .ok out) : Copyable n := by
  obtain ⟨hlen, hser⟩ := (serializeStr_iff hev).mp hout
  have hv := valid_of_serialize hser
  have hgt : 0 < n.evalSz := by
    have := length_serialize_pos hser
    omega
  unfold duplicate at hd
  rw [if_neg (by simp [hv])] at hd
  have hemptied : Emptied n → n.evalSz ≤ biggestMagic ∧ 0 ≤ n.evalValSz ∧
      n.evalSz = pbEvalLength n.tag .string 0 n.evalValSz.toNat := by
    intro he
    rw [innerDuplicate_emptied hev he] at hd
    split at hd
    · cases hd
    next bs hbs =>
    split at hd
    · cases hd
    next hsz =>
    cases hd
    obtain ⟨rfl, hlen'⟩ := (serializeStr_copy hv hgt _ _).mp hdout
    have hsz' := not_not.mp hsz
    rw [he.1, ← pbEvalLength_string_eq] at hlen'
    refine ⟨?_, by omega, ?_⟩
    · by_contra hbig
      have hzero : allocSize n.evalSz.toNat = 0 := by
        rw [allocSize, getMagic, if_neg (by omega)]
      rw [hzero] at hbs
      -- nothing fits a block that belongs to no pool
      have hnil := (roomy n 0 false bs hbs).1
      have hle := length_pbVint_le (pbTagWord .string n.tag)
      have h0 : (pbVint (UInt64.ofNat 0)).length = 1 := by decide
      rw [show bs.length = 0 by omega, pbEvalLength_eq_stringHead, stringHead, List.length_append, h0] at hlen'
      have hmagic : biggestMagic = 16777216 := rfl
      omega
    · rw [hsz', Int.toNat_natCast]
      exact hlen'
  refine ⟨⟨out, hout⟩, fun he => (hemptied he).1, fun he => (hemptied he).2, fun hr => ?_⟩
  have he : ¬Emptied n := fun he => hr.2.2 he.2.1
  rw [innerDuplicate_value he] at hd
  cases hd
  obtain ⟨rfl, -⟩ := (serializeStr_copy hv hgt _ _).mp hdout
  exact hout

/-- **When a copy is faithful.** -/
theorem copyFaithful_iff {n : KnvNode} (hev : 0 ≤ n.evalSz) : CopyFaithful n ↔ Copyable n := by
  have heval := evaluateSize_of_nonneg hev
  constructor
  · intro h
    obtain ⟨d, out, hd, hdout, hout, -, -⟩ := h false
    exact copyable_of_same hev hd hdout hout
  · rintro ⟨⟨out, hout⟩, hblock, hsizes, hfresh⟩ ownBuf
    obtain ⟨hlen, hser⟩ := (serializeStr_iff hev).mp hout
    have hv := valid_of_serialize hser
    have hcopy : ∃ v : PbVal, out = PbField.encode ⟨n.tag, n.type, v⟩ ∧
        n.innerDuplicate false = .ok (initNode n.tag n.type (some v) true n.evalSz.toNat false) := by
      by_cases he : Emptied n
      · exact duplicate_emptied hev he (hblock he) (hsizes he).1 (hsizes he).2 hout
      · refine ⟨n.val, ?_, innerDuplicate_value he⟩
        cases hf : (n.isFolded || n.isClean) with
        | true => exact ((serialize_value_iff hv hf).mp hser).2
        | false =>
          rw [Bool.or_eq_false_iff] at hf
          have hne : n.val.str ≠ [] := fun hnil => he ⟨type_of_not_folded hf.1, hnil, expanded_of_not_folded hf.1⟩
          have hdirty : n.subnodeDirty = true := by
            have hclean := hf.2
            simp only [isClean, isBufferValid] at hclean
            simpa [hne] using hclean
          exact Except.ok.inj (hout.symm.trans (hfresh ⟨hf.1, hdirty, hne⟩))
    obtain ⟨v, rfl, hdup⟩ := hcopy
    have hgt : 0 < n.evalSz := by
      have := length_encode_pos' ⟨n.tag, n.type, v⟩
      omega
    refine ⟨_, _, ?_, (serializeStr_copy hv hgt v false).mpr ⟨rfl, hlen⟩, hout, ?_, heval⟩
    · unfold duplicate
      rw [if_neg (by simp [hv]), hdup]
    · have hsz := evalSz_copy hgt v false
      rw [heval, evaluateSize_of_nonneg (by omega), hsz]

/-! ### Runs -/

/-- The nodes of every run are evaluated. -/
theorem shaped_of_run {Ok : List Slot → Place → KnvNode → Op → Prop} {root : KnvNode} (h : TreeRun Ok root) :
    Shaped root := by
  induction h with
  | newFromBytes h =>
    unfold newFromBytes at h
    split at h
    · cases h
    · cases h
      exact shaped_initNode ..
  | newTree h => exact shaped_newTree h
  | newLeaf h =>
    obtain ⟨-, ⟨-, rfl⟩ | ⟨k, hk, -⟩⟩ := new_cases h
    · exact shaped_initNode ..
    · cases hk
  | @step _ op _ _ _ _ _ hrun ih ihc =>
    refine (shaped_runAt ih ?_ hrun).1
    cases op with
    | insertChild child own atTail => exact ihc child own atTail rfl
    | _ => trivial

/-- **When `Duplicate` copies the current content.** In every state of every run, and for every node: the copy is
written as the same bytes as the node and has the same size exactly when the node can be written, its sizes fit and are
served by the memory pool if it has to be written for the copy, and a value that `SetTag` has left behind is still the
one that is written. -/
theorem duplicate_of_run {root : KnvNode} (h : TreeRun (fun _ _ _ _ => True) root) :
    All (fun n => CopyFaithful n ↔ Copyable n) root := by
  have hs := shaped_of_run h
  clear h
  induction root using induct with
  | h n hms hcs =>
    exact .mk (copyFaithful_iff hs.here.evaluated) (fun m hm => hms m hm (hs.metas m hm))
      fun c hc => hcs c hc (hs.children c hc)

/-- A tree that is built, folded, looked into again, and gets another tag. -/
def retaggedTree (c : KnvNode) (root : KnvNode) : KnvNode :=
  ((Op.setTag 13).run {} (Op.lookup.run {} (Op.getValue.run {}
    ((Op.insertChild c true true).run {} root).node).node).node).node

theorem treeRun_retaggedTree {c root : KnvNode} (hc : TreeRun (fun _ _ _ _ => True) c)
    (h : TreeRun (fun _ _ _ _ => True) root) : TreeRun (fun _ _ _ _ => True) (retaggedTree c root) :=
  (((h.atRoot (.insertChild c true true) hc trivial).atRoot .getValue trivial trivial).atRoot .lookup trivial
    trivial).atRoot (.setTag 13) trivial trivial

theorem treeRun_retaggedTree_leaf : TreeRun (fun _ _ _ _ => True)
    (retaggedTree (initNode 11 .varint (some { i64 := 1 })) (initNode 12 .string none)) :=
  treeRun_retaggedTree (.newLeaf (show new 11 .varint .string none (some { i64 := 1 }) = .ok _ from rfl))
    (.newTree (show newTree 12 none = .ok _ from rfl))

/-- The retagged tree has a value left behind, which is the one that is written as long as nothing below changes. -/
theorem duplicate_of_run_setTag :
    Retagged (retaggedTree (initNode 11 .varint (some { i64 := 1 })) (initNode 12 .string none)) ∧
      All (fun n => CopyFaithful n ↔ Copyable n)
        (retaggedTree (initNode 11 .varint (some { i64 := 1 })) (initNode 12 .string none)) :=
  ⟨by unfold Retagged; decide, duplicate_of_run treeRun_retaggedTree_leaf⟩

/-- A tree that gets another tag, and then another value in a child: its copy has the old one. -/
theorem not_duplicate_of_run : ¬∀ root, TreeRun (fun _ _ _ _ => True) root → All CopyFaithful root := by
  intro h
  obtain ⟨out, hout⟩ : ∃ out, (Op.setValueInt 2).runAt [.ofChild 0]
      (retaggedTree (initNode 11 .varint (some { i64 := 1 })) (initNode 12 .string none)) = some out := ⟨_, rfl⟩
  have hset : TreeRun (fun _ _ _ _ => True) out.node :=
    @TreeRun.step (fun _ _ _ _ => True) _ (.setValueInt 2) [.ofChild 0] out treeRun_retaggedTree_leaf
      (fun _ _ _ he => nomatch he) (fun _ _ _ _ => trivial) hout
  have hcopy := (h _ hset).here
  cases hout
  have hfresh := ((copyFaithful_iff (by decide)).mp hcopy).fresh (by unfold Retagged; decide)
  revert hfresh
  decide

end KnvNode

end KnvProto
