import KnvProto.Tree.Duplicate
import KnvProto.Tree.Sizes

/-!
# What `Serialize` leaves in the buffer

`Serialize` writes into the caller's buffer as it goes, and what it has written stays
there when it fails. `serializeBuf` is the same function with these bytes (`serializeBuf_err`);
`serializeAt` is it in a memory.

`fills_of_run`: a tree whose cached sizes are exact is written exactly when the buffer
is as large as its size says, and nothing is written beyond the buffer — but a node
that is copied without a header is refused a buffer of just its size.
-/

namespace KnvProto

/-- How `Serialize` fails: its return code and message, and the bytes it has written. -/
structure KnvFull where
  /-- The return code and the message. -/
  err : KnvErr
  /-- The bytes from `buf` on that have been written. -/
  out : Bytes

namespace KnvNode

/-! ### `Serialize` with what it leaves -/

/-- A failure of the codec, under the return code of a caller, with what is in the buffer. -/
def ofFullBuf (ret : ℤ) : Except PbFull PbBuff → Except KnvFull PbBuff
  | .ok b => .ok b
  | .error e => .error ⟨⟨ret, e.errmsg⟩, e.buff.out⟩

/-- The header of a node in `Serialize`. -/
def addHeadBuf (n : KnvNode) (withHeader : Bool) (size : ℕ) (b : PbBuff) : Except KnvFull PbBuff :=
  if withHeader then ofFullBuf (-6) (pbAddStringHead b n.tag size) else .ok b

/-- The key in `Serialize`. -/
def addKeyBuf (n : KnvNode) (b : PbBuff) : Except KnvFull PbBuff :=
  if n.hasKey then ofFullBuf (-7) (pbAddFieldVal b 1 n.key.type n.key.getValue) else .ok b

mutual

/-- `Serialize(buf, len, with_header)`, and what it has written when it fails. -/
def serializeBuf : KnvNode → ℕ → Bool → Except KnvFull Bytes
  | ⟨d, ms, cs⟩, len, withHeader =>
    let n : KnvNode := ⟨d, ms, cs⟩
    if !n.isValid then .error ⟨⟨-1, "node is invalid"⟩, []⟩
    else if n.isFolded || n.isClean then
      if withHeader then (ofFullBuf (-3) (pbAddFieldVal (pbInitBuff len) d.tag d.type d.val)).map (·.out)
      else if d.type ≠ .string then .error ⟨⟨-5, "not support serializing value for non-message"⟩, []⟩
      else if d.val.str.length < len then .ok d.val.str
      else .error ⟨⟨-4, "not enoug space for value"⟩, []⟩
    else
      let e := n.evaluateSize
      match (n.addHeadBuf withHeader e.evalValSz.toNat (pbInitBuff len)).bind n.addKeyBuf with
      | .error e => .error e
      | .ok b =>
        match serializeAllBuf (-8) n.hasKey ms len b.out with
        | .error e => .error e
        | .ok out =>
          match serializeAllBuf (-9) false cs len out with
          | .error e => .error e
          | .ok out =>
            if (out.length : ℤ) ≠ (if withHeader then e.evalSz else e.evalValSz) then
              .error ⟨⟨-10, "Bug: eval size incorrect"⟩, out⟩
            else .ok out

/-- The loops of `Serialize` over metas and children. -/
def serializeAllBuf (ret : ℤ) (skipKey : Bool) : List KnvNode → ℕ → Bytes → Except KnvFull Bytes
  | [], _, out => .ok out
  | n :: l, len, out =>
    if skipKey && n.tag == 1 then serializeAllBuf ret false l len out
    else
      match serializeBuf n (len - out.length) true with
      | .error e => .error ⟨⟨ret, e.err.errmsg⟩, out ++ e.out⟩
      | .ok bs => serializeAllBuf ret false l len (out ++ bs)

end

/-- The memory after `bs` has been copied to `ptr`. -/
def copyTo (mem : ℕ → UInt8) (ptr : ℕ) (bs : Bytes) : ℕ → UInt8 :=
  fun i => if ptr ≤ i then bs.getD (i - ptr) (mem i) else mem i

/-- `Serialize` into the `len` bytes of a memory from `buf` on: the memory afterwards, and the return code or `len`. -/
def serializeAt (n : KnvNode) (mem : ℕ → UInt8) (buf len : ℕ) (withHeader : Bool) : (ℕ → UInt8) × Except KnvErr ℕ :=
  match n.serializeBuf len withHeader with
  | .ok out => (copyTo mem buf out, .ok out.length)
  | .error e => (copyTo mem buf e.out, .error e.err)

/-! ### The result -/

theorem ofFullBuf_err (ret : ℤ) (x : Except PbFull PbBuff) : (ofFullBuf ret x).mapError (·.err) = ofFull ret x := by
  cases x <;> rfl

theorem serializeAllBuf_cons (ret : ℤ) (skipKey : Bool) (n : KnvNode) (l : List KnvNode) (len : ℕ) (out : Bytes) :
    serializeAllBuf ret skipKey (n :: l) len out =
      if skipKey && n.tag == 1 then serializeAllBuf ret false l len out
      else match n.serializeBuf (len - out.length) true with
        | .error e => .error ⟨⟨ret, e.err.errmsg⟩, out ++ e.out⟩
        | .ok bs => serializeAllBuf ret false l len (out ++ bs) := by
  cases hs : n.serializeBuf (len - out.length) true <;> simp only [serializeAllBuf, hs]

theorem serializeAllBuf_err {ret : ℤ} {len : ℕ} : ∀ {l : List KnvNode} {skipKey : Bool} {out : Bytes},
    (∀ x ∈ l, ∀ len withHeader, (x.serializeBuf len withHeader).mapError (·.err) = x.serialize len withHeader) →
    (serializeAllBuf ret skipKey l len out).mapError (·.err) = serializeAll ret skipKey l len out := by
  intro l
  induction l with
  | nil =>
    intro skipKey out _
    rw [serializeAllBuf, serializeAll_nil]
    rfl
  | cons x l ih =>
    intro skipKey out hl
    have hl' := fun y hy => hl y (List.mem_cons_of_mem _ hy)
    rw [serializeAllBuf_cons, serializeAll_cons]
    split
    · exact ih hl'
    · rw [← hl x (List.mem_cons_self ..)]
      cases x.serializeBuf (len - out.length) true with
      | error e => rfl
      | ok bs => exact ih hl'

/-- `serializeBuf` of a node that has to be written again. -/
theorem serializeBuf_again {n : KnvNode} (hv : n.isValid = true) (hf : (n.isFolded || n.isClean) = false) (len : ℕ)
    (withHeader : Bool) :
    n.serializeBuf len withHeader =
      match (n.addHeadBuf withHeader n.evaluateSize.evalValSz.toNat (pbInitBuff len)).bind n.addKeyBuf with
      | .error e => .error e
      | .ok b =>
        match serializeAllBuf (-8) n.hasKey n.metalist len b.out with
        | .error e => .error e
        | .ok out =>
          match serializeAllBuf (-9) false n.childlist len out with
          | .error e => .error e
          | .ok out =>
            if (out.length : ℤ) ≠ (if withHeader then n.evaluateSize.evalSz else n.evaluateSize.evalValSz) then
              .error ⟨⟨-10, "Bug: eval size incorrect"⟩, out⟩
            else .ok out := by
  obtain ⟨d, ms, cs⟩ := n
  rw [serializeBuf, if_neg (by simp [hv]), if_neg (by simp [hf])]

theorem front_err (n : KnvNode) (withHeader : Bool) (size : ℕ) (b : PbBuff) :
    ((n.addHeadBuf withHeader size b).bind n.addKeyBuf).mapError (·.err) =
      (n.addHead withHeader size b).bind n.addKey := by
  have hkey : ∀ b, (n.addKeyBuf b).mapError (·.err) = n.addKey b := by
    intro b
    rw [addKeyBuf, addKey]
    split
    · exact ofFullBuf_err ..
    · rfl
  have hhead : (n.addHeadBuf withHeader size b).mapError (·.err) = n.addHead withHeader size b := by
    rw [addHeadBuf, addHead]
    split
    · exact ofFullBuf_err ..
    · rfl
  rw [← hhead]
  cases n.addHeadBuf withHeader size b with
  | error e => rfl
  | ok b => exact hkey b

/-- **What `Serialize` leaves in the buffer does not change what it returns.** -/
theorem serializeBuf_err (n : KnvNode) : ∀ len withHeader,
    (n.serializeBuf len withHeader).mapError (·.err) = n.serialize len withHeader := by
  induction n using induct with
  | h n hms hcs =>
    intro len withHeader
    cases hv : n.isValid with
    | false =>
      obtain ⟨d, ms, cs⟩ := n
      rw [serializeBuf, serialize, if_pos (by simp [hv]), if_pos (by simp [hv])]
      rfl
    | true =>
    cases hf : (n.isFolded || n.isClean) with
    | true =>
      obtain ⟨d, ms, cs⟩ := n
      have hv' : ¬(!(⟨d, ms, cs⟩ : KnvNode).isValid) = true := by simp [hv]
      rw [serializeBuf, serialize, if_neg hv', if_pos hf, if_neg hv', if_pos hf]
      split
      · rw [← ofFullBuf_err]
        cases ofFullBuf (-3) (pbAddFieldVal (pbInitBuff len) d.tag d.type d.val) <;> rfl
      split
      · rfl
      split <;> rfl
    | false =>
      rw [serializeBuf_again hv hf, serialize_again hv hf, ← front_err]
      cases (n.addHeadBuf withHeader n.evaluateSize.evalValSz.toNat (pbInitBuff len)).bind n.addKeyBuf with
      | error e => rfl
      | ok b =>
        have hmetas := @serializeAllBuf_err (-8) len _ n.hasKey b.out hms
        simp only [Except.mapError, ← hmetas]
        cases serializeAllBuf (-8) n.hasKey n.metalist len b.out with
        | error e => rfl
        | ok out =>
          have hchildren := @serializeAllBuf_err (-9) len _ false out hcs
          simp only [Except.mapError, ← hchildren]
          cases serializeAllBuf (-9) false n.childlist len out with
          | error e => rfl
          | ok out =>
            simp only
            by_cases hsize : (out.length : ℤ) ≠ if withHeader then n.evaluateSize.evalSz else n.evaluateSize.evalValSz
            · rw [if_pos hsize, if_pos hsize]
            · rw [if_neg hsize, if_neg hsize]

/-! ### Nodes as fields -/

/-- The cached sizes of a valid node are those of what it is written as. -/
structure Accurate (n : KnvNode) : Prop where
  /-- `IsValid()`. -/
  valid : n.isValid = true
  /-- The sizes of a value that is copied. -/
  value : (n.isFolded || n.isClean) = true →
    n.evalSz = pbEvalFieldLength n.tag n.type n.val ∧ (n.type = .string → n.evalValSz = n.val.str.length)
  /-- The sizes of a node that is written again, from those below it. -/
  again : (n.isFolded || n.isClean) = false →
    n.evalValSz = n.keyLength + ((metasAfterKey n.hasKey n.metalist).map (·.evalSz)).sum + (n.childlist.map (·.evalSz)).sum ∧
      n.evalSz = pbEvalLength n.tag .string 0 n.evalValSz.toNat

theorem mem_of_metasAfterKey {b : Bool} {l : List KnvNode} {x : KnvNode} (h : x ∈ metasAfterKey b l) : x ∈ l := by
  cases l with
  | nil => exact h
  | cons y l =>
    rw [metasAfterKey] at h
    split at h
    · exact List.mem_cons_of_mem _ h
    · exact h

/-- The node is written as the field wherever there is room for it, and its cached size is the field's. -/
structure Wire (n : KnvNode) (f : PbField) : Prop where
  tag : f.tag = n.tag
  type : f.type = n.type
  norm : f.norm = f
  size : n.evalSz = f.encode.length
  iff : ∀ len out, n.serialize len true = .ok out ↔ f.encode.length ≤ len ∧ out = f.encode

theorem exists_fields {α β : Type*} {R : α → β → Prop} : ∀ {l : List α}, (∀ x ∈ l, ∃ y, R x y) →
    ∃ ys, List.Forall₂ R l ys := by
  intro l
  induction l with
  | nil => exact fun _ => ⟨[], .nil⟩
  | cons x l ih =>
    intro h
    obtain ⟨y, hy⟩ := h x (List.mem_cons_self ..)
    obtain ⟨ys, hys⟩ := ih fun z hz => h z (List.mem_cons_of_mem _ hz)
    exact ⟨y :: ys, .cons hy hys⟩

theorem sum_evalSz {l : List KnvNode} {fs : List PbField} (h : List.Forall₂ Wire l fs) :
    (l.map (·.evalSz)).sum = (encodeAll fs).length := by
  induction h with
  | nil => rfl
  | cons hx _ ih =>
    rw [List.map_cons, List.sum_cons, ih, hx.size, encodeAll_cons, List.length_append]
    omega

/-- The key that has been written already is left out. -/
theorem serializeAll_skip (ret : ℤ) (skipKey : Bool) (l : List KnvNode) (len : ℕ) (out : Bytes) :
    serializeAll ret skipKey l len out = serializeAll ret false (metasAfterKey skipKey l) len out := by
  cases l with
  | nil => rw [metasAfterKey, serializeAll_nil, serializeAll_nil]
  | cons x l =>
    rw [serializeAll_cons, metasAfterKey]
    split
    · rfl
    · rw [serializeAll_cons, Bool.false_and, if_neg Bool.false_ne_true]

/-- Nodes are written one after the other, exactly when there is room for all of them. -/
theorem serializeAll_iff {ret : ℤ} {len : ℕ} {l : List KnvNode} {fs : List PbField} (h : List.Forall₂ Wire l fs) :
    ∀ {out out' : Bytes}, out.length ≤ len → (serializeAll ret false l len out = .ok out' ↔
      (out ++ encodeAll fs).length ≤ len ∧ out' = out ++ encodeAll fs) := by
  induction h with
  | nil =>
    intro out out' hle
    rw [serializeAll_nil, Except.ok.injEq, eq_comm, encodeAll_nil, List.append_nil]
    exact ⟨fun h => ⟨hle, h⟩, fun h => h.2⟩
  | @cons x f l fs hx _ ih =>
    intro out out' hle
    rw [serializeAll_cons, Bool.false_and, if_neg Bool.false_ne_true, encodeAll_cons]
    cases hser : x.serialize (len - out.length) true with
    | error e =>
      simp only [reduceCtorEq, false_iff, List.length_append]
      rintro ⟨hlen, -⟩
      rw [(hx.iff _ _).mpr ⟨by omega, rfl⟩] at hser
      cases hser
    | ok bs =>
      obtain ⟨hlen, rfl⟩ := (hx.iff _ _).mp hser
      simp only
      rw [ih (by rw [List.length_append]; omega), List.append_assoc]

/-- The body of a node that is written again. -/
def body (n : KnvNode) (ms cs : List PbField) : Bytes := n.keyBytes ++ encodeAll ms ++ encodeAll cs

/-- **A node with exact sizes is written again exactly when there is room** for its header and its body. -/
theorem serialize_again_iff {n : KnvNode} (h : Accurate n) (hev : 0 ≤ n.evalSz) {ms cs : List PbField}
    (hf : (n.isFolded || n.isClean) = false) (hms : List.Forall₂ Wire (metasAfterKey n.hasKey n.metalist) ms)
    (hcs : List.Forall₂ Wire n.childlist cs) :
    n.evalValSz = (n.body ms cs).length ∧ ∀ withHeader len out, n.serialize len withHeader = .ok out ↔
      (n.head withHeader ++ n.body ms cs).length ≤ len ∧ out = n.head withHeader ++ n.body ms cs := by
  obtain ⟨hval, hsz⟩ := h.again hf
  have heval := evaluateSize_of_nonneg hev
  have hbody : n.evalValSz = (n.body ms cs).length := by
    rw [hval, sum_evalSz hms, sum_evalSz hcs, ← length_keyBytes, body, List.length_append, List.length_append]
    omega
  refine ⟨hbody, fun withHeader len out => ?_⟩
  have hsize : ((n.head withHeader ++ n.body ms cs).length : ℤ) =
      if withHeader then n.evaluateSize.evalSz else n.evaluateSize.evalValSz := by
    rw [heval, List.length_append, head, heval]
    cases withHeader with
    | false => simp [hbody]
    | true => rw [if_pos rfl, if_pos rfl, hsz, pbEvalLength_eq_stringHead, hbody, Int.toNat_natCast]
  rw [serialize_again h.valid hf]
  cases hhead : n.addHead withHeader n.evaluateSize.evalValSz.toNat (pbInitBuff len) with
  | error e =>
    simp only [Except.bind, reduceCtorEq, false_iff, List.length_append]
    rintro ⟨hlen, -⟩
    rw [addHead_iff.mpr ⟨by omega, rfl⟩] at hhead
    cases hhead
  | ok b =>
  obtain ⟨hlen₁, rfl⟩ := addHead_iff.mp hhead
  simp only [Except.bind]
  cases hkey : n.addKey ⟨n.head withHeader, len - (n.head withHeader).length⟩ with
  | error e =>
    simp only [reduceCtorEq, false_iff, List.length_append, body]
    rintro ⟨hlen, -⟩
    rw [addKey_iff.mpr ⟨by simp only; omega, rfl⟩] at hkey
    cases hkey
  | ok b =>
  obtain ⟨hlen₂, rfl⟩ := addKey_iff.mp hkey
  simp only at hlen₂ ⊢
  have hle₁ : (n.head withHeader ++ n.keyBytes).length ≤ len := by
    rw [List.length_append]
    omega
  rw [serializeAll_skip]
  cases hm : serializeAll (-8) false (metasAfterKey n.hasKey n.metalist) len (n.head withHeader ++ n.keyBytes) with
  | error e =>
    simp only [reduceCtorEq, false_iff, List.length_append, body]
    rintro ⟨hlen, -⟩
    rw [(serializeAll_iff hms hle₁).mpr ⟨by simp only [List.length_append]; omega, rfl⟩] at hm
    cases hm
  | ok out₁ =>
  obtain ⟨hle₂, rfl⟩ := (serializeAll_iff hms hle₁).mp hm
  simp only
  cases hc : serializeAll (-9) false n.childlist len (n.head withHeader ++ n.keyBytes ++ encodeAll ms) with
  | error e =>
    simp only [reduceCtorEq, false_iff, List.length_append, body]
    rintro ⟨hlen, -⟩
    rw [(serializeAll_iff hcs hle₂).mpr ⟨by simp only [List.length_append]; omega, rfl⟩] at hc
    cases hc
  | ok out₂ =>
  obtain ⟨hle₃, rfl⟩ := (serializeAll_iff hcs hle₂).mp hc
  have hout : n.head withHeader ++ n.keyBytes ++ encodeAll ms ++ encodeAll cs = n.head withHeader ++ n.body ms cs := by
    simp only [body, List.append_assoc]
  simp only
  rw [hout] at hle₃ ⊢
  rw [if_neg (not_not_intro hsize), Except.ok.injEq, eq_comm]
  exact ⟨fun h => ⟨hle₃, h⟩, fun h => h.2⟩

/-- A value that is copied is written as its field. -/
theorem wire_of_value {n : KnvNode} (h : Accurate n) (hf : (n.isFolded || n.isClean) = true) :
    Wire n (PbField.norm ⟨n.tag, n.type, n.val⟩) := by
  refine ⟨rfl, rfl, norm_norm _, ?_, fun len out => ?_⟩
  · rw [(h.value hf).1, pbEvalFieldLength_eq, encode_norm]
  · rw [encode_norm]
    exact serialize_value_iff h.valid hf

/-- A node that is written again is written as the field of its body. -/
theorem wire_again {n : KnvNode} (h : Accurate n) (hev : 0 ≤ n.evalSz) {ms cs : List PbField}
    (hf : (n.isFolded || n.isClean) = false) (hms : List.Forall₂ Wire (metasAfterKey n.hasKey n.metalist) ms)
    (hcs : List.Forall₂ Wire n.childlist cs) : Wire n ⟨n.tag, .string, { str := n.body ms cs }⟩ := by
  obtain ⟨hbody, hiff⟩ := serialize_again_iff h hev hf hms hcs
  have hhead : n.head true ++ n.body ms cs = PbField.encode ⟨n.tag, .string, { str := n.body ms cs }⟩ := by
    rw [head, if_pos rfl, evaluateSize_of_nonneg hev, hbody, Int.toNat_natCast, encode_string]
  have hfold := (Bool.or_eq_false_iff.mp hf).1
  refine ⟨rfl, (type_of_not_folded hfold).symm, rfl, ?_, fun len out => ?_⟩
  · rw [(h.again hf).2, hbody, Int.toNat_natCast, pbEvalLength_string_eq n.tag { str := n.body ms cs }]
  · rw [hiff, hhead]

/-- **A node with exact sizes is written as a field**, wherever there is room for it. -/
theorem wire_of_accurate {n : KnvNode} (h : All Accurate n) (hs : Shaped n) : ∃ f, Wire n f := by
  induction n using induct with
  | h n hms hcs =>
    cases hf : (n.isFolded || n.isClean) with
    | true => exact ⟨_, wire_of_value h.here hf⟩
    | false =>
      obtain ⟨ms, hms⟩ := exists_fields (l := metasAfterKey n.hasKey n.metalist) fun x hx =>
        hms x (mem_of_metasAfterKey hx) (h.metas x (mem_of_metasAfterKey hx)) (hs.metas x (mem_of_metasAfterKey hx))
      obtain ⟨cs, hcs⟩ := exists_fields fun x hx => hcs x hx (h.children x hx) (hs.children x hx)
      exact ⟨_, wire_again h.here hs.here.evaluated hf hms hcs⟩

/-- The encoded size: `EvaluateSize()` with a header, `eval_val_sz` without. -/
def encodedSize (n : KnvNode) (withHeader : Bool) : ℤ :=
  if withHeader then n.evaluateSize.evalSz else n.evaluateSize.evalValSz

/-- A value that is copied without a header, into a buffer of just its size. -/
def TightCopy (n : KnvNode) (withHeader : Bool) (len : ℕ) : Prop :=
  withHeader = false ∧ (n.isFolded || n.isClean) = true ∧ (len : ℤ) = n.encodedSize withHeader

/-- A node with exact sizes is written exactly when there is room, but for a tight copy. -/
theorem serialize_room_iff {n : KnvNode} (h : All Accurate n) (hs : Shaped n) {withHeader : Bool}
    (ht : withHeader = false → n.type = .string) : ∃ bs : Bytes, (bs.length : ℤ) = n.encodedSize withHeader ∧
      ∀ len out, n.serialize len withHeader = .ok out ↔
        (bs.length ≤ len ∧ ¬n.TightCopy withHeader len) ∧ out = bs := by
  have heval := evaluateSize_of_nonneg hs.here.evaluated
  have hn := h.here
  cases withHeader with
  | true =>
    obtain ⟨f, hf⟩ := wire_of_accurate h hs
    refine ⟨f.encode, by rw [encodedSize, if_pos rfl, heval, hf.size], fun len out => ?_⟩
    rw [hf.iff]
    simp [TightCopy]
  | false =>
    cases hf : (n.isFolded || n.isClean) with
    | true =>
      have hsize : n.encodedSize false = n.val.str.length := by
        rw [encodedSize, if_neg Bool.false_ne_true, heval, (hn.value hf).2 (ht rfl)]
      refine ⟨n.val.str, hsize.symm, fun len out => ?_⟩
      rw [serialize_valueOnly_iff hn.valid hf, TightCopy, hsize]
      simp only [ht rfl, hf, true_and, and_congr_left_iff]
      intro _
      omega
    | false =>
      obtain ⟨ms, hms⟩ := exists_fields (l := metasAfterKey n.hasKey n.metalist) fun x hx =>
        wire_of_accurate (h.metas x (mem_of_metasAfterKey hx)) (hs.metas x (mem_of_metasAfterKey hx))
      obtain ⟨cs, hcs⟩ := exists_fields fun x hx => wire_of_accurate (h.children x hx) (hs.children x hx)
      obtain ⟨hbody, hiff⟩ := serialize_again_iff hn hs.here.evaluated hf hms hcs
      refine ⟨n.body ms cs, by rw [encodedSize, if_neg Bool.false_ne_true, heval, hbody], fun len out => ?_⟩
      rw [hiff, head, if_neg Bool.false_ne_true, List.nil_append]
      simp [TightCopy, hf]

/-! ### Nothing beyond the buffer -/

/-- An encoder that was given `cap` bytes, written and unwritten, still has as many. -/
def Within (cap : ℕ) : Except PbFull PbBuff → Prop
  | .ok b => b.out.length + b.left = cap
  | .error e => e.buff.out.length + e.buff.left = cap

theorem within_pbAdd {cap : ℕ} {b : PbBuff} (h : b.out.length + b.left = cap) (bs : Bytes) : Within cap (pbAdd b bs) := by
  unfold pbAdd
  split
  · exact h
  · simp only [Within, List.length_append]
    omega

theorem within_mapError {cap : ℕ} {x : Except PbFull PbBuff} (h : Within cap x) (ret : ℤ) :
    Within cap (x.mapError (·.as ret)) := by
  cases x <;> exact h

theorem within_bind {cap : ℕ} {x : Except PbFull PbBuff} {g : PbBuff → Except PbFull PbBuff} (h : Within cap x)
    (hg : ∀ b : PbBuff, b.out.length + b.left = cap → Within cap (g b)) : Within cap (x.bind g) := by
  cases x with
  | error e => exact h
  | ok b => exact hg b h

theorem within_pbAddFieldVal {cap : ℕ} {b : PbBuff} (h : b.out.length + b.left = cap) (tag : UInt32) (type : PbType)
    (val : PbVal) : Within cap (pbAddFieldVal b tag type val) := by
  unfold pbAddFieldVal
  refine within_bind (within_mapError (within_pbAdd h _) _) fun b hb => ?_
  cases type with
  | string => exact within_bind (within_mapError (within_pbAdd hb _) _) fun b hb => within_pbAdd hb _
  | _ => exact within_pbAdd hb _

theorem within_pbAddStringHead {cap : ℕ} {b : PbBuff} (h : b.out.length + b.left = cap) (tag : UInt32) (size : ℕ) :
    Within cap (pbAddStringHead b tag size) :=
  within_bind (within_mapError (within_pbAdd h _) _) fun _ hb => within_pbAdd hb _

/-- What `Serialize` leaves when it fails is in the buffer. -/
def Inside (n : KnvNode) : Prop := ∀ len withHeader e, n.serializeBuf len withHeader = .error e → e.out.length ≤ len

theorem ok_serializeBuf {n : KnvNode} {len : ℕ} {withHeader : Bool} {out : Bytes} :
    n.serializeBuf len withHeader = .ok out ↔ n.serialize len withHeader = .ok out := by
  rw [← serializeBuf_err]
  cases n.serializeBuf len withHeader <;> simp [Except.mapError]

theorem inside_serializeAllBuf {ret : ℤ} {len : ℕ} : ∀ {l : List KnvNode} {skipKey : Bool} {out : Bytes} {e : KnvFull},
    (∀ x ∈ l, Inside x) → out.length ≤ len → serializeAllBuf ret skipKey l len out = .error e → e.out.length ≤ len := by
  intro l
  induction l with
  | nil =>
    intro skipKey out e _ _ h
    rw [serializeAllBuf] at h
    cases h
  | cons x l ih =>
    intro skipKey out e hl hle h
    have hl' := fun y hy => hl y (List.mem_cons_of_mem _ hy)
    rw [serializeAllBuf_cons] at h
    split at h
    · exact ih hl' hle h
    split at h
    · next e' he' =>
      cases h
      have := hl x (List.mem_cons_self ..) _ _ _ he'
      rw [List.length_append]
      omega
    · next bs hbs =>
      have := (roomy x _ _ _ (ok_serializeBuf.mp hbs)).1
      exact ih hl' (by rw [List.length_append]; omega) h

/-- The same of a step of `Serialize`, whose failure keeps what has been written. -/
def WithinBuf (cap : ℕ) : Except KnvFull PbBuff → Prop
  | .ok b => b.out.length + b.left = cap
  | .error e => e.out.length ≤ cap

theorem within_ofFullBuf {cap : ℕ} {x : Except PbFull PbBuff} (h : Within cap x) (ret : ℤ) :
    WithinBuf cap (ofFullBuf ret x) := by
  cases x with
  | error e =>
    have : e.buff.out.length + e.buff.left = cap := h
    simp only [ofFullBuf, WithinBuf]
    omega
  | ok b => exact h

theorem within_front (n : KnvNode) (withHeader : Bool) (size len : ℕ) :
    WithinBuf len ((n.addHeadBuf withHeader size (pbInitBuff len)).bind n.addKeyBuf) := by
  have hhead : WithinBuf len (n.addHeadBuf withHeader size (pbInitBuff len)) := by
    have hinit : (pbInitBuff len).out.length + (pbInitBuff len).left = len := by simp [pbInitBuff]
    unfold addHeadBuf
    split
    · exact within_ofFullBuf (within_pbAddStringHead hinit _ _) _
    · exact hinit
  cases hx : n.addHeadBuf withHeader size (pbInitBuff len) with
  | error e =>
    rw [hx] at hhead
    exact hhead
  | ok b =>
    rw [hx] at hhead
    show WithinBuf len (n.addKeyBuf b)
    unfold addKeyBuf
    split
    · exact within_ofFullBuf (within_pbAddFieldVal hhead _ _ _) _
    · exact hhead

/-- **`Serialize` writes nothing beyond the buffer, whatever the tree is.** -/
theorem inside (n : KnvNode) : Inside n := by
  induction n using induct with
  | h n hms hcs =>
    intro len withHeader e h
    cases hv : n.isValid with
    | false =>
      obtain ⟨d, ms, cs⟩ := n
      rw [serializeBuf, if_pos (by simp [hv])] at h
      cases h
      simp
    | true =>
    cases hf : (n.isFolded || n.isClean) with
    | true =>
      obtain ⟨d, ms, cs⟩ := n
      rw [serializeBuf, if_neg (by simp [hv]), if_pos hf] at h
      split at h
      · have hfield := within_ofFullBuf (@within_pbAddFieldVal len (pbInitBuff len)
          (by simp [pbInitBuff]) d.tag d.type d.val) (-3)
        cases hx : ofFullBuf (-3) (pbAddFieldVal (pbInitBuff len) d.tag d.type d.val) with
        | error e' =>
          rw [hx] at h hfield
          cases h
          exact hfield
        | ok b =>
          rw [hx] at h
          cases h
      split at h
      · cases h
        simp
      split at h
      · cases h
      · cases h
        simp
    | false =>
      rw [serializeBuf_again hv hf] at h
      have hfront := within_front n withHeader n.evaluateSize.evalValSz.toNat len
      cases hx : (n.addHeadBuf withHeader n.evaluateSize.evalValSz.toNat (pbInitBuff len)).bind n.addKeyBuf with
      | error e' =>
        rw [hx] at h hfront
        cases h
        exact hfront
      | ok b =>
      rw [hx] at h hfront
      have hle : b.out.length + b.left = len := hfront
      simp only at h
      split at h
      · next e' he' =>
        cases h
        exact inside_serializeAllBuf hms (by omega) he'
      next out₁ hm =>
      have hm' : serializeAll (-8) n.hasKey n.metalist len b.out = .ok out₁ := by
        rw [← serializeAllBuf_err fun x _ => serializeBuf_err x, hm]
        rfl
      obtain ⟨bs, -, hle₁, -⟩ := serializeAll_room (fun x _ => roomy x) (by omega) hm'
      split at h
      · next e' he' =>
        cases h
        exact inside_serializeAllBuf hcs hle₁ he'
      next out₂ hc =>
      have hc' : serializeAll (-9) false n.childlist len out₁ = .ok out₂ := by
        rw [← serializeAllBuf_err fun x _ => serializeBuf_err x, hc]
        rfl
      obtain ⟨bs, -, hle₂, -⟩ := serializeAll_room (fun x _ => roomy x) hle₁ hc'
      by_cases hsize : (out₂.length : ℤ) ≠ if withHeader then n.evaluateSize.evalSz else n.evaluateSize.evalValSz
      · rw [if_pos hsize] at h
        cases h
        exact hle₂
      · rw [if_neg hsize] at h
        cases h

/-! ### The buffer -/

theorem copyTo_outside {mem : ℕ → UInt8} {ptr : ℕ} {bs : Bytes} {i : ℕ} (h : i < ptr ∨ ptr + bs.length ≤ i) :
    copyTo mem ptr bs i = mem i := by
  unfold copyTo
  split
  · rw [List.getD_eq_getElem?_getD, List.getElem?_eq_none (by omega), Option.getD_none]
  · rfl

/-- `Serialize` does with a buffer of `len` bytes what its size says: it succeeds exactly when the encoding fits, sets
`len` to its size and writes nothing after it; and when it does not fit, nothing is written beyond the buffer. -/
structure Fills (n : KnvNode) (withHeader : Bool) (len : ℕ) : Prop where
  iff : ∀ mem buf, (∃ k, (n.serializeAt mem buf len withHeader).2 = .ok k) ↔ n.encodedSize withHeader ≤ len
  size : ∀ mem buf k, (n.serializeAt mem buf len withHeader).2 = .ok k → (k : ℤ) = n.encodedSize withHeader ∧
    ∀ i, i < buf ∨ buf + k ≤ i → (n.serializeAt mem buf len withHeader).1 i = mem i
  beyond : ∀ mem buf, (len : ℤ) < n.encodedSize withHeader →
    ∀ i, i < buf ∨ buf + len ≤ i → (n.serializeAt mem buf len withHeader).1 i = mem i

/-- **When a buffer is filled as its size says.** -/
theorem fills_iff {n : KnvNode} (h : All Accurate n) (hs : Shaped n) {withHeader : Bool}
    (ht : withHeader = false → n.type = .string) (len : ℕ) : n.Fills withHeader len ↔ ¬n.TightCopy withHeader len := by
  obtain ⟨bs, hsize, hiff⟩ := serialize_room_iff h hs ht
  have hok : ∀ out, n.serializeBuf len withHeader = .ok out ↔ (bs.length ≤ len ∧ ¬n.TightCopy withHeader len) ∧ out = bs :=
    fun out => ok_serializeBuf.trans (hiff len out)
  constructor
  · rintro hfill ⟨hwh, hf, hlen⟩
    obtain ⟨k, hk⟩ := (hfill.iff (fun _ => 0) 0).mpr (by omega)
    rw [serializeAt] at hk
    cases hx : n.serializeBuf len withHeader with
    | error e =>
      rw [hx] at hk
      cases hk
    | ok out => exact ((hok out).mp hx).1.2 ⟨hwh, hf, hlen⟩
  · intro htight
    cases hx : n.serializeBuf len withHeader with
    | ok out =>
      obtain ⟨⟨hle, -⟩, rfl⟩ := (hok out).mp hx
      refine ⟨fun mem buf => ?_, fun mem buf k hk => ?_, fun mem buf hlt => by omega⟩
      · simp only [serializeAt, hx, Except.ok.injEq, exists_eq', true_iff]
        omega
      · simp only [serializeAt, hx, Except.ok.injEq] at hk ⊢
        subst hk
        exact ⟨hsize, fun i hi => copyTo_outside hi⟩
    | error e =>
      have hlt : len < bs.length := by
        by_contra hge
        rw [(hok bs).mpr ⟨⟨by omega, htight⟩, rfl⟩] at hx
        cases hx
      have hle := inside n _ _ _ hx
      refine ⟨fun mem buf => ?_, fun mem buf k hk => ?_, fun mem buf _ i hi => ?_⟩
      · simp only [serializeAt, hx, reduceCtorEq, exists_false, false_iff]
        omega
      · simp [serializeAt, hx] at hk
      · simp only [serializeAt, hx]
        exact copyTo_outside (by omega)

/-- **When `Serialize` succeeds exactly with a buffer that is large enough.** In every state of every run whose cached
sizes are exact, for every node and every buffer: it does unless it copies a value without a header into a buffer of
just its size. -/
theorem fills_of_run {root : KnvNode} (h : TreeRun (fun _ _ _ _ => True) root) (hx : All Accurate root) :
    All (fun n => ∀ withHeader len, (withHeader = false → n.type = .string) →
      (n.Fills withHeader len ↔ ¬n.TightCopy withHeader len)) root := by
  have hs := shaped_of_run h
  clear h
  induction root using induct with
  | h n hms hcs =>
    exact .mk (fun _ len ht => fills_iff hx hs ht len) (fun m hm => hms m hm (hx.metas m hm) (hs.metas m hm))
      fun c hc => hcs c hc (hx.children c hc) (hs.children c hc)

/-- A tree with a leaf in it, in a buffer of any size. -/
theorem fills_of_run_leaf : ∃ root : KnvNode, root.evalSz = 4 ∧
    All (fun n => ∀ withHeader len, (withHeader = false → n.type = .string) →
      (n.Fills withHeader len ↔ ¬n.TightCopy withHeader len)) root := by
  have htree : TreeRun (fun _ _ _ _ => True) (initNode 12 .string none) :=
    .newTree (show newTree 12 none = .ok _ from rfl)
  have hleaf : TreeRun (fun _ _ _ _ => True) (initNode 11 .varint (some { i64 := 1 })) :=
    .newLeaf (show new 11 .varint .string none (some { i64 := 1 }) = .ok _ from rfl)
  have hins := htree.atRoot (.insertChild (initNode 11 .varint (some { i64 := 1 })) true true) hleaf trivial
  refine ⟨_, by decide, fills_of_run hins (.mk ⟨by decide, fun h => absurd h (by decide), fun _ => by decide⟩
    (fun _ hm => absurd hm List.not_mem_nil) fun c hc => ?_)⟩
  have hc' : c ∈ [(initNode 11 .varint (some { i64 := 1 })).at' 0] := hc
  rw [List.mem_singleton.mp hc']
  exact .mk ⟨by decide, fun _ => by decide, fun h => absurd h (by decide)⟩ (fun _ hm => absurd hm List.not_mem_nil)
    fun _ hc => absurd hc List.not_mem_nil

/-- A string of one byte, which is refused a buffer of one byte. -/
theorem not_fills_of_run : ¬∀ root, TreeRun (fun _ _ _ _ => True) root → All Accurate root →
    All (fun n => ∀ withHeader len, (withHeader = false → n.type = .string) → n.Fills withHeader len) root := by
  intro h
  have hleaf : TreeRun (fun _ _ _ _ => True) (initNode 11 .string (some { str := [65] })) :=
    .newLeaf (show new 11 .string .string none (some { str := [65] }) = .ok _ from rfl)
  have hfill := (h _ hleaf (.mk ⟨by decide, fun _ => by decide, fun h => absurd h (by decide)⟩
    (fun _ hm => absurd hm List.not_mem_nil) fun _ hc => absurd hc List.not_mem_nil)).here false 1 fun _ => rfl
  obtain ⟨k, hk⟩ := (hfill.iff (fun _ => 0) 0).mpr (by decide)
  cases hk

end KnvNode

end KnvProto
