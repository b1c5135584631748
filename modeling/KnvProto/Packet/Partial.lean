import KnvProto.Packet.Oidb

/-!
# Packets in parts

A packet that is too long is sent in parts, each of them a packet with the same header,
the number of parts and its own index, and a piece of the long packet. `AddPartial`
collects them: a packet takes over a first part as it is, puts the pieces of others next
to it, and is decoded again from all pieces when the last one has arrived.

## The model

`assign` and `AddPartial` take another packet. With `own_buf` they copy it; without, they
share its tree, which is not used afterwards. What a lookup leaves expanded in the other
packet is left out. A length that is added up is an `int`, and what `len` of the union is
for a number is its lowest 32 bits.
-/

namespace KnvProto

open PathEdit KnvNode

/-- `KNV_PKG_PART_TAG_BASE`. -/
abbrev knvPkgPartTagBase : UInt32 := 0x1ee

/-- The tag of a part. -/
def partTag (i : ℕ) : UInt32 := knvPkgPartTagBase + UInt32.ofNat i

namespace KnvProtocol

/-! ### Taking over a packet -/

/-- `IsComplete`. -/
def isComplete (p : KnvProtocol) : Bool :=
  p.isValid && (p.retcode != 0 || p.totalSplitCount == 0 || p.getBody.isSome)

/-- What `assign` takes of the copy of a tree. -/
def adopt (t : KnvNode) (p : KnvProtocol) : KnvProtocol × ℤ :=
  match t.findChildByTag knvPkgHdrTag {} with
  | (_, none) => { p with tree := none, header := none, body := none }.fail (-2) "No header in protocol"
  | (t, some a) => { p with tree := some t, header := some a }.onHeader (fun pl n => n.expandOp pl) fun p _ =>
    match p.tree with
    | none => (p, 0)
    | some t' =>
      match t'.findChildByTag knvPkgBdyTag {} with
      | (t', b) =>
        ({ p with
          tree := some t'
          retmsg := (childAt t' a).elim [] fun h => metaStr h knvPkgHdrErrTag
          body := b.map .child }, 0)

/-- `assign(prot, own_buf)`. -/
def assign (p prot : KnvProtocol) (ownBuf : Bool) : KnvProtocol × ℤ :=
  let p := { p with
    cmd := prot.cmd
    subcmd := prot.subcmd
    seq := prot.seq
    retcode := prot.retcode
    rspaddr := prot.rspaddr
    allowSplit := prot.allowSplit
    maxPkgSz := prot.maxPkgSz
    totalSplitCount := prot.totalSplitCount
    currSplitIndex := prot.currSplitIndex
    tree := none
    header := none
    body := none }
  if ownBuf then
    match prot.tree.map (KnvNode.duplicate true) with
    | some (Except.ok t) => { p with retmsg := [] }.adopt t
    | _ => { p with retmsg := [] }.fail (-1) "Out of memory"
  else ({ p with tree := prot.tree, header := prot.header, body := prot.body, retmsg := prot.retmsg }, 0)

/-- `assign(buf, buf_len, own_buf)`. -/
def assignBuf (buf : Bytes) (p : KnvProtocol) : KnvProtocol × ℤ :=
  match newFromBytes buf with
  | .error e => p.fail (-1) ("Construct KnvNode failed: " ++ e.errmsg)
  | .ok t => ({ p with tree := some t, header := none, body := none }.initProtocol, 0)

/-! ### Merging the parts -/

/-- What is read of the child with a part: its address, its type and its value. -/
structure PartLeaf where
  /-- The address. -/
  addr : ℕ
  /-- `GetType`. -/
  type : PbType
  /-- `GetValue`, unless it fails. -/
  value : Option PbVal

/-- `str.len` of a value. -/
def strLen (type : PbType) (v : PbVal) : ℕ := if type = .string then v.str.length else v.i64.toNat % 2 ^ 32

/-- `FindChildByTag` of a part, and `GetValue` of what is found. -/
def readPart (i : ℕ) (t : KnvNode) : KnvNode × Option PartLeaf :=
  match t.findChildByTag (partTag i) {} with
  | (t, none) => (t, none)
  | (t, some a) =>
    match childAt t a, t.onChild a (fun _ c => c.getValueOp) {} with
    | some c, some o => (o.node, some ⟨a, c.type, c.getValue.2.toOption⟩)
    | _, _ => (t, none)

/-- The loop of `AddPartial` that looks whether the parts from some index on are there: their length, if they are. -/
def checkParts : List ℕ → ℤ → KnvNode → KnvNode × Except KnvErr (Option ℤ)
  | [], totalLen, t => (t, .ok (some totalLen))
  | i :: is, totalLen, t =>
    match readPart i t with
    | (t, none) => (t, .ok none)
    | (t, some l) =>
      match l.value with
      | none => (t, .error ⟨-6, "protocol part is empty"⟩)
      | some v =>
        if strLen l.type v = 0 then (t, .error ⟨-6, "protocol part is empty"⟩)
        else if l.type ≠ .string then (t, .error ⟨-7, "protocol part is not a buffer"⟩)
        else checkParts is (Int.bmod (totalLen + strLen l.type v) (2 ^ 32)) t

/-- The loop of `AddPartial` that puts the parts from some index on behind each other. -/
def takeParts (totalLen : ℤ) : List ℕ → Bytes → KnvNode → KnvNode × Except KnvErr Bytes
  | [], buf, t => (t, .ok buf)
  | i :: is, buf, t =>
    match readPart i t with
    | (t, none) => (t, .error ⟨-10, "bug: part exists but get part failed"⟩)
    | (t, some l) =>
      match l.value with
      | none => (t, .error ⟨-11, "protocol part is empty"⟩)
      | some v =>
        if totalLen < (buf.length + v.str.length : ℕ) % 2 ^ 32 then
          (t, .error ⟨-12, "bug: pre-calc buffer size is not enough for parts"⟩)
        else takeParts totalLen is (buf ++ v.str) (t.removeChildByPos l.addr none).node

/-- What `AddPartial` does when it has put a part into the tree. -/
def mergeParts (t : KnvNode) (p : KnvProtocol) : KnvProtocol × ℤ :=
  match checkParts (List.range p.totalSplitCount.toNat) 0 t with
  | (t, .error e) => { p with tree := some t }.fail e.ret e.errmsg
  | (t, .ok none) => ({ p with tree := some t }, 0)
  | (t, .ok (some totalLen)) =>
    if totalLen ≤ 0 then { p with tree := some t }.fail (-8) "merged length is 0"
    else match takeParts totalLen (List.range p.totalSplitCount.toNat) [] t with
    | (t, .error e) => { p with tree := some t }.fail e.ret e.errmsg
    | (t, .ok buf) =>
      match { p with tree := some t }.assignBuf buf with
      | (p, 0) => (p, 0)
      | (p, _) => p.fail (-13) ("assign merged protocol failed: " ++ p.errmsg)

/-- `AddPartial`, of a tree that waits for parts: the part with the index of `part` is put into it. -/
def addPart (pt t : KnvNode) (i : ℕ) (p : KnvProtocol) : KnvProtocol × ℤ :=
  match childByTag pt (partTag i) with
  | none => p.fail (-2) ("protocol has no corresponding part " ++ toString i)
  | some c =>
    if c.type ≠ .string then p.fail (-3) ("part " ++ toString i ++ " is not a buffer as expected")
    else match t.findChildByTag (partTag i) {} with
    | (t, some _) => { p with tree := some t }.fail (-4) ("part " ++ toString i ++ " is already in the protocol")
    | (t, none) =>
      let o := insertChild c false true {} t
      match o.ret with
      | .error e => { p with tree := some o.node }.fail (-5) ("Insert partial body failed: " ++ e.errmsg)
      | .ok _ => { p with tree := some o.node }.mergeParts o.node

/-- `AddPartial(part, own_buf)`. -/
def addPartial (p part : KnvProtocol) (ownBuf : Bool) : KnvProtocol × ℤ :=
  match part.isValid, part.tree with
  | true, some pt =>
    match p.tree with
    | none => p.assign part ownBuf
    | some t =>
      if p.isComplete || part.isComplete || p.totalSplitCount != part.totalSplitCount
          || p.totalSplitCount ≤ part.currSplitIndex then p.assign part ownBuf
      else p.addPart pt t part.currSplitIndex.toNat
  | _, _ => p.fail (-1) "part is invalid"

/-! ### Reading the parts -/

/-- A child is put where it is. -/
theorem setSlot_same (n : KnvNode) {i : ℕ} (hi : i < n.childlist.length) : n.setSlot (.ofChild i) n.childlist[i] = n := by
  obtain ⟨d, ms, cs⟩ := n
  rw [setSlot_ofChild, List.set_getElem_self]

/-- A function that leaves a child as it is leaves the node as it is. -/
theorem onChild_same {t c : KnvNode} (h : Findable t) (hc : c ∈ t.childlist) {f : Place → KnvNode → Out}
    {r : Except KnvErr ℕ}
    (hf : ∀ pl, f pl c = ⟨c, [], r⟩) (pl : Place) : t.onChild c.self f pl = some ⟨t, [], r⟩ := by
  obtain ⟨i, hi, rfl⟩ := List.getElem_of_mem hc
  rw [h.onChild (List.getElem?_eq_getElem hi) (hf _), setSlot_same t hi]
  rfl

/-- The value of a leaf is what it holds. -/
theorem getValue_of_folded {c : KnvNode} (hv : c.isValid = true) (hf : c.isFolded = true) : c.getValue = (c, .ok c.val) := by
  rw [getValue, fold, hv, hf]
  rfl

/-- A part that is there is read. -/
theorem readPart_some {t c : KnvNode} {i : ℕ} (h : Findable t) (hc : t.withTag (partTag i) = [c]) (hv : c.isValid = true)
    (hf : c.isFolded = true) : readPart i t = (t, some ⟨c.self, c.type, some c.val⟩) := by
  obtain ⟨hfind, hat⟩ := h.find hc {}
  have hmem : c ∈ t.childlist := (mem_withTag.mp (show c ∈ t.withTag (partTag i) from hc ▸ List.mem_singleton_self c)).1
  have hval := getValue_of_folded hv hf
  have hop : ∀ pl : Place, (fun (_ : Place) (c : KnvNode) => c.getValueOp) pl c = ⟨c, [], .ok 0⟩ := by
    intro _
    simp only [getValueOp, hval]
    rfl
  rw [readPart, hfind]
  simp only [childAt, hat, onChild_same h hmem hop, hval]
  rfl

/-- A part that is not there is not read. -/
theorem readPart_none {t : KnvNode} {i : ℕ} (h : Findable t) (hc : t.withTag (partTag i) = []) :
    readPart i t = (t, none) := by
  rw [readPart, h.find_none hc]

theorem toNat_partTag {i : ℕ} (h : i < 2 ^ 31) : (partTag i).toNat = 0x1ee + i := by
  rw [partTag, UInt32.toNat_add, UInt32.toNat_ofNat', Nat.mod_eq_of_lt (by omega : i < 2 ^ 32)]
  exact Nat.mod_eq_of_lt (show 0x1ee + i < 2 ^ 32 by omega)

theorem partTag_inj {i j : ℕ} (hi : i < 2 ^ 32) (hj : j < 2 ^ 32) (h : partTag i = partTag j) : i = j := by
  have h' : UInt32.ofNat i = UInt32.ofNat j := by simpa [partTag] using h
  have hmod := congrArg UInt32.toNat h'
  rw [UInt32.toNat_ofNat', UInt32.toNat_ofNat', Nat.mod_eq_of_lt hi, Nat.mod_eq_of_lt hj] at hmod
  exact hmod

/-- A node that holds a piece of a packet: a string that has not been looked into. -/
structure IsChunk (c : KnvNode) (s : Bytes) : Prop where
  valid : c.isValid = true
  type : c.type = .string
  folded : c.isFolded = true
  val : c.val.str = s

/-- A tree has one child with a part, which holds a piece of a packet. -/
def HoldsPart (t : KnvNode) (i : ℕ) (s : Bytes) : Prop := ∃ c, t.withTag (partTag i) = [c] ∧ IsChunk c s

theorem HoldsPart.read {t : KnvNode} {i : ℕ} {s : Bytes} (h : Findable t) (hp : HoldsPart t i s) :
    ∃ c ∈ t.childlist, c.tag = partTag i ∧ ∃ v, v.str = s ∧ readPart i t = (t, some ⟨c.self, .string, some v⟩) := by
  obtain ⟨c, hc, hchunk⟩ := hp
  obtain ⟨hmem, htag⟩ := mem_withTag.mp (show c ∈ t.withTag (partTag i) from hc ▸ List.mem_singleton_self c)
  refine ⟨c, hmem, htag, c.val, hchunk.val, ?_⟩
  rw [readPart_some h hc hchunk.valid hchunk.folded, hchunk.type]

section

variable {f : ℕ → Bytes}

/-- All parts are there: their lengths are added up. -/
theorem checkParts_some {t : KnvNode} (h : Findable t) : ∀ {is : List ℕ} {totalLen : ℕ},
    (∀ i ∈ is, HoldsPart t i (f i) ∧ f i ≠ []) → totalLen + (is.map f).flatten.length < 2 ^ 31 →
    checkParts is totalLen t = (t, .ok (some (totalLen + (is.map f).flatten.length : ℕ))) := by
  intro is
  induction is with
  | nil => exact fun _ _ => rfl
  | cons i is ih =>
    intro totalLen hall hlt
    obtain ⟨hpart, hne⟩ := hall i (List.mem_cons_self ..)
    obtain ⟨c, -, -, v, hv, hread⟩ := hpart.read h
    have hlen : (f i).length ≠ 0 := fun h0 => hne (List.length_eq_zero_iff.mp h0)
    have hsum : ((i :: is).map f).flatten.length = (f i).length + (is.map f).flatten.length := by
      rw [List.map_cons, List.flatten_cons, List.length_append]
    rw [hsum] at hlt ⊢
    have hwrap : Int.bmod ((totalLen : ℤ) + (f i).length) (2 ^ 32) = (totalLen + (f i).length : ℕ) := by
      rw [Int.natCast_add]
      exact Int.bmod_eq_of_le (by omega) (by omega)
    rw [checkParts, hread]
    simp only [strLen, if_true, hv, hlen, if_false, ne_eq, not_true_eq_false, hwrap]
    rw [ih (fun j hj => hall j (List.mem_cons_of_mem _ hj)) (by omega), Nat.add_assoc]

/-- A part is missing. -/
theorem checkParts_none {t : KnvNode} (h : Findable t) : ∀ {is : List ℕ} {totalLen : ℤ},
    (∀ i ∈ is, HoldsPart t i (f i) ∧ f i ≠ [] ∨ t.withTag (partTag i) = []) → (∃ i ∈ is, t.withTag (partTag i) = []) →
    checkParts is totalLen t = (t, .ok none) := by
  intro is
  induction is with
  | nil => exact fun _ ⟨_, hi, _⟩ => absurd hi List.not_mem_nil
  | cons i is ih =>
    intro totalLen hall hmiss
    rcases hall i (List.mem_cons_self ..) with ⟨hpart, hne⟩ | hnone
    · obtain ⟨c, -, -, v, hv, hread⟩ := hpart.read h
      have hlen : (f i).length ≠ 0 := fun h0 => hne (List.length_eq_zero_iff.mp h0)
      rw [checkParts, hread]
      simp only [strLen, if_true, hv, hlen, if_false, ne_eq, not_true_eq_false]
      refine ih (fun j hj => hall j (List.mem_cons_of_mem _ hj)) ?_
      obtain ⟨j, hj, hjnone⟩ := hmiss
      rcases List.mem_cons.mp hj with rfl | hj
      · obtain ⟨c, hc, -⟩ := hpart
        rw [hc] at hjnone
        cases hjnone
      · exact ⟨j, hj, hjnone⟩
    · rw [checkParts, readPart_none h hnone]

/-- All parts are there: they are put behind each other. -/
theorem takeParts_ok {totalLen : ℕ} (hlt : totalLen < 2 ^ 31) : ∀ {is : List ℕ} {buf : Bytes} {t : KnvNode}, Findable t →
    is.Nodup → (∀ i ∈ is, i < 2 ^ 32 ∧ HoldsPart t i (f i)) → buf.length + (is.map f).flatten.length ≤ totalLen →
    ∃ t', takeParts totalLen is buf t = (t', .ok (buf ++ (is.map f).flatten)) := by
  intro is
  induction is with
  | nil =>
    intro buf t _ _ _ _
    exact ⟨t, by rw [takeParts, List.map_nil, List.flatten_nil, List.append_nil]⟩
  | cons i is ih =>
    intro buf t h hnd hall hlen
    obtain ⟨hi, hpart⟩ := hall i (List.mem_cons_self ..)
    obtain ⟨hni, hnd⟩ := List.nodup_cons.mp hnd
    obtain ⟨c, hc, htag, v, hv, hread⟩ := hpart.read h
    obtain ⟨h', hrest⟩ := h.removeChildByPos hc
    have hsum : ((i :: is).map f).flatten.length = (f i).length + (is.map f).flatten.length := by
      rw [List.map_cons, List.flatten_cons, List.length_append]
    rw [hsum] at hlen
    have hfit : ¬(totalLen : ℤ) < (buf.length + v.str.length : ℕ) % 2 ^ 32 := by
      rw [hv]
      omega
    have hall' : ∀ j ∈ is, j < 2 ^ 32 ∧ HoldsPart (t.removeChildByPos c.self none).node j (f j) := by
      intro j hj
      obtain ⟨hjlt, d, hd, hchunk⟩ := hall j (List.mem_cons_of_mem _ hj)
      refine ⟨hjlt, d, ?_, hchunk⟩
      rw [hrest (partTag j) fun heq => hni (partTag_inj hjlt hi (heq.trans htag) ▸ hj), hd]
    obtain ⟨t', ht'⟩ := ih h' hnd hall' (show (buf ++ v.str).length + _ ≤ _ by
      rw [List.length_append, hv]
      omega)
    refine ⟨t', ?_⟩
    rw [takeParts, hread]
    simp only [hfit, if_false]
    rw [ht', hv, List.map_cons, List.flatten_cons, List.append_assoc]

end

end KnvProtocol

end KnvProto
