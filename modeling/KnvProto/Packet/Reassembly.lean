import KnvProto.Packet.Partial

/-!
# Putting the parts together

What `AddPartial` does with the parts of a packet that has been cut into pieces. A
decoded part without a body is copied as it is (`IsPart.assign`), and then the tree has
one child for every part that has arrived and none for the others (`Collecting`). Every
step keeps that, refuses a part that is there, or merges the pieces (`Added`), so that
the parts can arrive in any order (`addPartial_any_order`).

What is collected is known by the count of its parts, and by nothing else. Messages with
different counts are not mixed (`merged_of_one`); those with the same count are, whatever
their sequence numbers are (`not_merged_of_one`).

## The model

A part is decoded from its bytes. The packet that collects the parts keeps the `errmsg`
of the last call that failed, which is not part of the packet.
-/

namespace KnvProto

open PathEdit KnvNode

namespace KnvNode

/-- A node is made again from its value. -/
theorem initNode_again {n : KnvNode} {tag : UInt32} {type : PbType} {val : PbVal} {sz : ℕ} {k : Bool} (hsz : 0 < sz)
    (h : n = initNode tag type (some val) true sz k) : initNode n.tag n.type (some n.val) true n.evalSz.toNat k = n := by
  have hval : n.val.pick n.type = n.val := by
    rw [h]
    simp only [initNode, PbVal.pick]
    split <;> rfl
  have heval : n.evalSz.toNat = sz := by
    rw [h]
    simp [initNode, hsz]
  have hval' : n.val = val.pick type := by rw [h]; rfl
  rw [heval]
  subst h
  simp only [initNode] at hval hval' ⊢
  simp only [hval]

/-- A child that has been expanded. -/
theorem innerExpand_parentKeyed {n : KnvNode} (h : n.tag ≠ 1) (pk pk' k : Bool) :
    n.innerExpand pk k = n.innerExpand pk' k := by
  unfold innerExpand
  simp only [h, false_and, if_false]

/-- Nothing is found where nothing is. -/
theorem findChildByTag_nil {n : KnvNode} {pl : Place} (h : (n.innerExpand pl.parentKeyed false).childlist = [])
    (t : UInt32) :
    (n.findChildByTag t pl).2 = none := by
  unfold findChildByTag
  split
  · rfl
  · simp only [childNum, h, innerExpand_expanded, if_true]
    rfl

end KnvNode

namespace KnvProtocol

/-! ### Decoded packets -/

/-- The tree of a packet when it has been decoded: it and its header, which is its child `i`, have been looked into. -/
def opened (t₀ : KnvNode) (i : ℕ) (hdr : KnvNode) : KnvNode :=
  (t₀.innerExpand false false).setSlot (.ofChild i) (hdr.innerExpand false false)

/-- A node that can be decoded as a packet. -/
structure Packed (t₀ : KnvNode) (i : ℕ) (hdr : KnvNode) : Prop where
  again : initNode t₀.tag t₀.type (some t₀.val) true t₀.evalSz.toNat false = t₀
  tag : t₀.tag = knvPkgTag
  type : t₀.type = .string
  val : t₀.val.str ≠ []
  readable : Readable (t₀.innerExpand false false)
  parsed : (t₀.innerExpand false false).childlist = (parsed false 0 (pbScan t₀.val.str).1).filter (!·.isMetaTag)
  header : (t₀.innerExpand false false).childlist[i]? = some hdr
  headerTag : hdr.tag = knvPkgHdrTag
  find : t₀.findChildByTag knvPkgHdrTag {} = (t₀.innerExpand false false, some hdr.self)

/-- A packet that is valid after `InitProtocol` has a header. -/
theorem header_of_valid {p : KnvProtocol} {t₀ : KnvNode} (hp : p.tree = some t₀) (hh : p.header = none)
    (hv : p.initProtocol.isValid = true) : t₀.tag = knvPkgTag ∧ (t₀.findChildByTag knvPkgHdrTag {}).2 ≠ none := by
  unfold initProtocol at hv
  rw [hp] at hv
  simp only at hv
  split at hv
  · cases hv
  · next htag =>
    refine ⟨not_not.mp htag, fun hnone => ?_⟩
    have hfind : t₀.findChildByTag knvPkgHdrTag {} = ((t₀.findChildByTag knvPkgHdrTag {}).1, none) := by
      rw [← hnone]
    unfold expandTree at hv
    rw [hh, hfind] at hv
    cases hv

/-- A packet that is decoded is well-formed. -/
theorem packed_of_valid {bs : Bytes} {t₀ : KnvNode} (hb : newFromBytes bs = .ok t₀) {p : KnvProtocol} (hp : p.tree = some t₀)
    (hh : p.header = none) (hv : p.initProtocol.isValid = true) : ∃ i hdr, Packed t₀ i hdr := by
  obtain ⟨htag, hfound⟩ := header_of_valid hp hh hv
  have hvalid : t₀.isValid = true := by
    rw [KnvNode.isValid, htag]
    rfl
  unfold newFromBytes at hb
  cases hbegin : pbBegin bs with
  | none =>
    rw [hbegin] at hb
    cases hb
  | some r =>
    obtain ⟨f, rest⟩ := r
    rw [hbegin] at hb
    simp only [Except.ok.injEq] at hb
    have hlen : rest.length + f.val.str.length < bs.length := by
      refine length_of_pbDecodeTag ?_
      unfold pbBegin at hbegin
      cases hd : pbDecodeTag bs with
      | error e =>
        rw [hd] at hbegin
        cases hbegin
      | ok r =>
        rw [hd] at hbegin
        cases hbegin
        rfl
    have hshape : Shape t₀ := hb ▸ shape_initNode ..
    have hindexed : Indexed t₀ := hb ▸ indexed_initNode ..
    have hnil : t₀.childlist = [] := by rw [← hb]; rfl
    have hslots : t₀.slots = 0 := by rw [← hb]; rfl
    have hexp : t₀.expanded = false := by
      by_contra hexp
      refine hfound (findChildByTag_nil ?_ _)
      rw [innerExpand_of_expanded (by simpa using hexp), hnil]
    have hcases : Expanded false false t₀ (t₀.innerExpand false false) := innerExpand_cases hexp
    have hread : t₀.type = .string ∧ (pbBegin t₀.val.str).isSome ∧ (pbScan t₀.val.str).2 = true ∧
        (t₀.innerExpand false false).childlist = (KnvNode.parsed false 0 (pbScan t₀.val.str).1).filter (!·.isMetaTag) := by
      generalize hn : t₀.innerExpand false false = n at hcases
      cases hcases with
      | leaf _ => exact absurd (@findChildByTag_nil t₀ {} (hn ▸ rfl) _) hfound
      | cut _ _ _ _ _ _ _ => exact absurd (@findChildByTag_nil t₀ {} (hn ▸ rfl) _) hfound
      | message _ _ _ htype _ hsome heom => exact ⟨htype, hsome, heom, by rw [hslots]⟩
    obtain ⟨htype, hsome, heom, hparsed⟩ := hread
    have hreadable := readable_innerExpand hvalid hexp hshape hindexed heom false false
    have hinner := findChildByTag_innerExpand t₀ knvPkgHdrTag
    rw [if_pos hvalid] at hinner
    obtain ⟨a, ha⟩ := Option.ne_none_iff_exists'.mp hfound
    have hfind : (t₀.innerExpand false false).findChildByTag knvPkgHdrTag {} =
        (((t₀.innerExpand false false).findChildByTag knvPkgHdrTag {}).1, some a) := by rw [← ha, hinner]
    obtain ⟨hsame, hdr, hmem, rfl⟩ := hreadable.findable.of_find hfind
    obtain ⟨hmem, hdrTag⟩ := mem_withTag.mp hmem
    obtain ⟨i, hi⟩ := List.mem_iff_getElem?.mp hmem
    refine ⟨i, hdr, initNode_again (by omega) hb.symm, htag, htype, fun h => ?_, hreadable, hparsed, hi, hdrTag, ?_⟩
    · rw [h] at hsome
      cases hsome
    · rw [hinner, hfind, hsame]

section

variable {t₀ hdr : KnvNode} {i : ℕ}

theorem Packed.headerValid (h : Packed t₀ i hdr) : hdr.isValid = true := by
  rw [KnvNode.isValid, h.headerTag]
  rfl

/-- What `Expand` of the header does to the tree. -/
theorem Packed.expandHeader (h : Packed t₀ i hdr) :
    (t₀.innerExpand false false).onChild hdr.self (fun pl n => n.expandOp pl) {} =
    some ⟨opened t₀ i hdr, [], .ok 0⟩ := by
  have hop : (fun (pl : Place) (n : KnvNode) => n.expandOp pl) ((t₀.innerExpand false false).place (.ofChild i)) hdr =
      ⟨hdr.innerExpand false false, [], .ok 0⟩ := by
    have hne : hdr.tag ≠ 1 := by
      rw [h.headerTag]
      decide
    simp only [expandOp, expand, if_pos h.headerValid]
    rw [innerExpand_parentKeyed hne _ false]
  rw [h.readable.findable.onChild h.header hop]
  rfl

/-- The header of the tree. -/
theorem Packed.header_mem (h : Packed t₀ i hdr) : hdr ∈ (t₀.innerExpand false false).childlist :=
  List.mem_of_getElem? h.header

theorem Packed.findable (h : Packed t₀ i hdr) : Findable (opened t₀ i hdr) := by
  have hsame := expandSame false false hdr
  exact h.readable.findable.hear h.header hsame.self hsame.key
    (.quiet (show htEvents [] = [] from rfl) hsame.tag (by rw [hsame.key]))

/-- The children of the tree that are not the header are those of the node that was read. -/
theorem Packed.withTag (h : Packed t₀ i hdr) {t : UInt32} (ht : t ≠ knvPkgHdrTag) :
    (opened t₀ i hdr).withTag t = (t₀.innerExpand false false).withTag t := by
  have hsame := expandSame false false hdr
  obtain ⟨hi, hget⟩ := List.getElem?_eq_some_iff.mp h.header
  have hne : hdr.tag ≠ t := by
    rw [h.headerTag]
    exact ht.symm
  rw [opened, KnvNode.withTag, KnvNode.withTag, setSlot_ofChild]
  simp only
  conv_rhs => rw [← List.take_append_drop i (t₀.innerExpand false false).childlist, List.drop_eq_getElem_cons hi, hget]
  rw [List.set_eq_take_append_cons_drop, if_pos hi, List.filter_append, List.filter_append,
    List.filter_cons_of_neg (by simpa using hsame.tag.trans_ne hne), List.filter_cons_of_neg (by simpa using hne)]

/-- The packet that is decoded. -/
theorem Packed.initProtocol (h : Packed t₀ i hdr) {p : KnvProtocol} (hp : p.tree = some t₀) (hh : p.header = none) :
    p.initProtocol = { p with
      tree := some (opened t₀ i hdr)
      header := some hdr.self
      body := (findFirstBody (t₀.innerExpand false false).childlist).map fun (b : KnvNode) => BodyPtr.child b.self
    }.readHeader (hdr.innerExpand false false) := by
  have hvalid : t₀.isValid = true := by
    rw [KnvNode.isValid, h.tag]
    rfl
  have hchildren : t₀.children = (t₀.innerExpand false false).childlist := if_pos hvalid
  have hnode : childAt (t₀.innerExpand false false) hdr.self = some hdr :=
    find?_self h.readable.shape.nodup_children h.header_mem
  unfold KnvProtocol.initProtocol
  rw [hp]
  simp only
  rw [if_neg (not_not_intro h.tag)]
  unfold expandTree
  rw [hh, h.find, hchildren]
  simp only [Option.isNone_some, Bool.false_eq_true, if_false]
  unfold initHeaderInfo headerNode
  simp only [Option.bind_some, hnode]
  unfold KnvProtocol.onHeader
  simp only [Option.bind_some, h.expandHeader]

/-- A copy of the tree is the node that was read. -/
theorem Packed.duplicate (h : Packed t₀ i hdr) : (opened t₀ i hdr).duplicate true = .ok t₀ := by
  have hsame := expandSame false false t₀
  have htag : (opened t₀ i hdr).tag = t₀.tag := hsame.tag
  have htype : (opened t₀ i hdr).type = t₀.type := hsame.type
  have hval : (opened t₀ i hdr).val = t₀.val := hsame.val
  have heval : (opened t₀ i hdr).evalSz = t₀.evalSz := hsame.evalSz
  have hvalid := h.findable.valid
  rw [KnvNode.duplicate, if_neg (by simp [hvalid]), innerDuplicate, if_neg fun hc => h.val (hval ▸ hc.2.1),
    htag, htype, hval, heval, h.again]

/-- A decoded packet without a body is copied as it is. -/
theorem Packed.assign (h : Packed t₀ i hdr) {prot : KnvProtocol} (ht : prot.tree = some (opened t₀ i hdr))
    (hh : prot.header = some hdr.self) (hr : prot.retmsg = metaStr (hdr.innerExpand false false) knvPkgHdrErrTag)
    (hb : prot.body = none) (hnone : (opened t₀ i hdr).withTag knvPkgBdyTag = []) (p : KnvProtocol) :
    p.assign prot true = ({ prot with errmsg := p.errmsg }, 0) := by
  have hsame := expandSame false false hdr
  have hat : childAt (opened t₀ i hdr) hdr.self = some (hdr.innerExpand false false) := by
    have hmem : hdr.innerExpand false false ∈ (opened t₀ i hdr).childlist := by
      rw [opened, setSlot_ofChild]
      exact List.mem_set (List.getElem?_eq_some_iff.mp h.header).1 _
    have hfind := find?_self h.findable.shape.nodup_children hmem
    rw [hsame.self] at hfind
    exact hfind
  unfold KnvProtocol.assign
  simp only [if_true, ht, Option.map_some, h.duplicate]
  unfold adopt
  rw [h.find]
  simp only
  unfold KnvProtocol.onHeader
  simp only [Option.bind_some, h.expandHeader, h.findable.find_none hnone, hat, Option.elim]
  obtain ⟨_, _, _, _, _, _, _, _, _, _, _, _, _, _⟩ := prot
  simp only at ht hh hr hb
  subst ht hh hr hb
  rfl

end

/-- A packet of this format. -/
structure IsPacket (s : Bytes) : Prop where
  knv : s.headD 0 ≠ stxIpv6Pb
  valid : (decode s).isValid = true

/-- What is decoded of a packet of this format. -/
theorem IsPacket.packed {s : Bytes} (h : IsPacket s) : ∃ t₀ i hdr, newFromBytes s = .ok t₀ ∧ Packed t₀ i hdr ∧
    decode s = ({ tree := some t₀ } : KnvProtocol).initProtocol := by
  have hv := h.valid
  rw [decode, ofBuf, if_neg h.knv] at hv
  cases hb : newFromBytes s with
  | error e =>
    rw [hb] at hv
    cases hv
  | ok t₀ =>
    rw [hb] at hv
    obtain ⟨i, hdr, hp⟩ := packed_of_valid hb rfl rfl hv
    exact ⟨t₀, i, hdr, rfl, hp, by rw [decode, ofBuf, if_neg h.knv, hb]⟩

/-- What `assign` makes of the bytes of a packet is what is decoded of them. -/
theorem IsPacket.assignBuf {s : Bytes} (h : IsPacket s) (p : KnvProtocol) :
    p.assignBuf s = ({ decode s with errmsg := p.errmsg }, 0) := by
  obtain ⟨t₀, i, hdr, hb, hp, hdec⟩ := h.packed
  rw [KnvProtocol.assignBuf, hb, hdec, hp.initProtocol rfl rfl]
  simp only
  rw [hp.initProtocol rfl rfl]
  rfl

/-! ### Parts -/

/-- The pieces of a packet in a tree, under the tag of a part. -/
def piecesOf (p : KnvProtocol) (i : ℕ) : List (PbType × Bytes) := match p.tree with
  | some t => (t.withTag (partTag i)).map fun c => (c.type, c.val.str)
  | none => []

/-- A packet with a part of a message that has been cut into pieces. -/
structure IsPart (pieces : List Bytes) (i : ℕ) (w : Bytes) : Prop where
  packet : IsPacket w
  retcode : (decode w).retcode = 0
  count : (decode w).totalSplitCount.toNat = pieces.length
  index : (decode w).currSplitIndex.toNat = i
  lt : i < pieces.length
  body : (decode w).body = none
  /-- The piece is under the tag of the part, and nothing is under those of the others. -/
  piece : ∀ j < pieces.length, (decode w).piecesOf j = if j = i then [(.string, pieces.getD j [])] else []

theorem partTag_ne {i : ℕ} (h : i < 256) {t : UInt32} (ht : t.toNat < 0x1ee ∨ 0x2ee ≤ t.toNat) : partTag i ≠ t := by
  rintro rfl
  rw [toNat_partTag (by omega)] at ht
  omega

/-- A packet that waits for parts. -/
structure Collecting (pieces : List Bytes) (held : List ℕ) (q : KnvProtocol) : Prop where
  retcode : q.retcode = 0
  count : q.totalSplitCount.toNat = pieces.length
  body : q.body = none
  /-- The tree has the pieces of the parts that have arrived. -/
  tree : ∃ t, q.tree = some t ∧ t.tag = knvPkgTag ∧ t.type = .string ∧ Findable t ∧
    ∀ j < pieces.length, j ∈ held ∧ HoldsPart t j (pieces.getD j []) ∨ j ∉ held ∧ t.withTag (partTag j) = []

section

variable {pieces : List Bytes} {held : List ℕ} {i : ℕ} {w : Bytes} {q : KnvProtocol}

/-- A packet that waits for parts is not complete. -/
theorem Collecting.not_isComplete (h : Collecting pieces held q) (hn : 2 ≤ pieces.length) : q.isComplete = false := by
  have hcount : (q.totalSplitCount == 0) = false := by
    refine beq_eq_false_iff_ne.mpr fun h0 => ?_
    have hc := h.count
    rw [h0] at hc
    have : (0 : UInt8).toNat = 0 := rfl
    omega
  unfold isComplete getBody bodyNode
  rw [h.retcode, h.body, hcount]
  simp

/-- **A part waits for the others.** -/
theorem IsPart.collecting (h : IsPart pieces i w) (hn : pieces.length ≤ 255) : Collecting pieces [i] (decode w) := by
  obtain ⟨t₀, k, hdr, -, hp, hdec⟩ := h.packet.packed
  have hdec' := hdec
  rw [hp.initProtocol rfl rfl] at hdec'
  have htree : (decode w).tree = some (opened t₀ k hdr) := by rw [hdec']; rfl
  have hsame := expandSame false false t₀
  refine ⟨h.retcode, h.count, h.body, _, htree, hsame.tag.trans hp.tag, hsame.type.trans hp.type, hp.findable, ?_⟩
  intro j hj
  have hpiece := h.piece j hj
  rw [piecesOf, htree] at hpiece
  simp only at hpiece
  split at hpiece
  · next heq =>
    subst heq
    obtain ⟨c, hc, hcv⟩ := List.map_eq_singleton_iff.mp hpiece
    rw [Prod.mk.injEq] at hcv
    have hlt : j < 256 := by omega
    have hmem : c ∈ (t₀.innerExpand false false).withTag (partTag j) := by
      rw [← hp.withTag (partTag_ne hlt (.inr (by decide))), hc]
      exact List.mem_singleton_self c
    obtain ⟨hmem, htag⟩ := mem_withTag.mp hmem
    rw [hp.parsed] at hmem
    have hfold : c.isFolded = true := by
      obtain ⟨f, -, b, rfl⟩ := mem_parsed (List.mem_filter.mp hmem).1
      rw [isFolded_at']
      exact isFolded_initNode ..
    have hvalid : c.isValid = true := by
      rw [KnvNode.isValid, htag]
      exact bne_iff_ne.mpr (partTag_ne hlt (.inl (by decide)))
    exact .inl ⟨List.mem_singleton_self j, c, hc, hvalid, hcv.1, hfold, hcv.2⟩
  · next hne => exact .inr ⟨by simpa using hne, List.map_eq_nil_iff.mp hpiece⟩

/-- An error message is nothing to a packet that waits for parts. -/
theorem Collecting.withError (h : Collecting pieces held q) (e : String) : Collecting pieces held { q with errmsg := e } :=
  ⟨h.retcode, h.count, h.body, h.tree⟩

/-- A part is taken over as it is. -/
theorem IsPart.assign (h : IsPart pieces i w) (p : KnvProtocol) :
    p.assign (decode w) true = ({ decode w with errmsg := p.errmsg }, 0) := by
  obtain ⟨t₀, k, hdr, -, hp, hdec⟩ := h.packet.packed
  rw [hp.initProtocol rfl rfl] at hdec
  have hbody := h.body
  rw [hdec] at hbody
  have hfirst : findFirstBody (t₀.innerExpand false false).childlist = none := Option.map_eq_none_iff.mp hbody
  have hnone : (opened t₀ k hdr).withTag knvPkgBdyTag = [] := by
    rw [hp.withTag (by decide), KnvNode.withTag, List.filter_eq_nil_iff]
    exact List.find?_eq_none.mp hfirst
  refine hp.assign ?_ ?_ ?_ h.body hnone p
  · rw [hdec]
    rfl
  · rw [hdec]
    rfl
  · rw [hdec]
    rfl

/-- A part is looked for in a packet that waits for it. -/
theorem Collecting.addPartial (hq : Collecting pieces held q) (hw : IsPart pieces i w) (hn : 2 ≤ pieces.length)
    (hn' : pieces.length ≤ 255) {t : KnvNode} (ht : q.tree = some t) : ∃ pt c, childByTag pt (partTag i) = some c ∧
      c.tag = partTag i ∧ IsChunk c (pieces.getD i []) ∧ q.addPartial (decode w) true = q.addPart pt t i := by
  have hpart := hw.collecting hn'
  have hcount : q.totalSplitCount = (decode w).totalSplitCount := UInt8.toNat_inj.mp (hq.count.trans hpart.count.symm)
  have hindex : ¬(decode w).totalSplitCount ≤ (decode w).currSplitIndex := by
    rw [UInt8.le_iff_toNat_le, hpart.count, hw.index]
    exact Nat.not_le.mpr hw.lt
  obtain ⟨pt, hpt, -, -, hfindable, hall⟩ := hpart.tree
  rcases hall i hw.lt with ⟨-, c, hc, hchunk⟩ | ⟨hni, -⟩
  swap
  · exact absurd (List.mem_singleton_self i) hni
  obtain ⟨hfind, hat⟩ := hfindable.find hc {}
  have hmem := mem_withTag.mp (show c ∈ pt.withTag (partTag i) from hc ▸ List.mem_singleton_self c)
  refine ⟨pt, c, ?_, hmem.2, hchunk, ?_⟩
  · rw [childByTag, hfind]
    exact hat
  · unfold KnvProtocol.addPartial
    rw [hw.packet.valid, hpt, ht]
    simp only [hq.not_isComplete hn, hpart.not_isComplete hn, hcount, hw.index]
    simp [hindex]

/-- **A part that has arrived already is refused.** -/
theorem Collecting.refused (hq : Collecting pieces held q) (hw : IsPart pieces i w) (hn : 2 ≤ pieces.length)
    (hn' : pieces.length ≤ 255) (hi : i ∈ held) : q.addPartial (decode w) true =
      ({ q with errmsg := "part " ++ toString i ++ " is already in the protocol" }, -4) := by
  obtain ⟨t, ht, -, -, hfindable, hall⟩ := hq.tree
  obtain ⟨pt, c, hfound, -, hchunk, heq⟩ := hq.addPartial hw hn hn' ht
  rcases hall i hw.lt with ⟨-, d, hd, -⟩ | ⟨hni, -⟩
  swap
  · exact absurd hi hni
  rw [heq, addPart, hfound]
  simp only [hchunk.type, (hfindable.find hd {}).1, ne_eq, not_true_eq_false, if_false, KnvProtocol.fail]
  rw [← ht]

/-- The copy of a node that holds a piece holds it, too. -/
theorem IsChunk.copy {c : KnvNode} {s : Bytes} (h : IsChunk c s) (sz a : ℕ) :
    IsChunk ((initNode c.tag c.type (some c.val) true sz false).at' a) s := by
  have hval : ((initNode c.tag c.type (some c.val) true sz false).at' a).val = c.val.pick c.type := rfl
  refine ⟨h.valid, h.type, ?_, ?_⟩
  · rw [isFolded_at']
    exact isFolded_initNode ..
  · rw [hval, h.type]
    exact h.val

/-- **A part that has not arrived yet is put into the tree.** -/
theorem Collecting.arrived (hq : Collecting pieces held q) (hw : IsPart pieces i w) (hn : 2 ≤ pieces.length)
    (hn' : pieces.length ≤ 255) (hne : pieces.getD i [] ≠ []) (hi : i ∉ held) :
    ∃ t', Collecting pieces (i :: held) { q with tree := some t' } ∧
      q.addPartial (decode w) true = { q with tree := some t' }.mergeParts t' := by
  obtain ⟨t, ht, htag, htype, hfindable, hall⟩ := hq.tree
  obtain ⟨pt, c, hfound, hctag, hchunk, heq⟩ := hq.addPartial hw hn hn' ht
  have hlt := hw.lt
  rcases hall i hlt with ⟨hi', -⟩ | ⟨-, hnone⟩
  · exact absurd hi' hi
  obtain ⟨d, hd⟩ : ∃ d, d = initNode c.tag c.type (some c.val) true c.evalSz.toNat false := ⟨_, rfl⟩
  have hcopy : c.toLink false = .ok d := by
    have hcond : ¬(c.type = .string ∧ c.val.str = [] ∧ c.expanded = true) := fun h => hne (hchunk.val ▸ h.2.1)
    rw [toLink, if_neg Bool.false_ne_true, innerDuplicate, if_neg hcond, hd]
  have hev : 0 ≤ d.evalSz := by
    rw [hd]
    exact Int.natCast_nonneg _
  have hdtag : d.tag = partTag i := by rw [hd]; exact hctag
  have hdchunk : ∀ a, IsChunk (d.at' a) (pieces.getD i []) := by
    intro a
    rw [hd]
    exact hchunk.copy _ a
  obtain ⟨hret, hfindable', htouched⟩ := hfindable.insertChild htype hcopy hev {}
  refine ⟨(insertChild c false true {} t).node, ⟨hq.retcode, hq.count, hq.body, _, rfl, htouched.tag.trans htag,
    htouched.type.trans htype, hfindable', fun j hj => ?_⟩, ?_⟩
  · have hwith := withTag_linkChild (t := partTag j) t d
    rw [← withTag_touched htouched, hdtag] at hwith
    by_cases hji : j = i
    · subst hji
      rw [hnone, if_pos rfl, List.nil_append] at hwith
      exact .inl ⟨List.mem_cons_self .., _, hwith, hdchunk _⟩
    · have htags : partTag i ≠ partTag j := fun h => hji (partTag_inj (by omega) (by omega) h).symm
      rw [if_neg htags, List.append_nil] at hwith
      rcases hall j hj with ⟨hjh, e, he, hechunk⟩ | ⟨hjh, hjnone⟩
      · exact .inl ⟨List.mem_cons_of_mem _ hjh, e, hwith.trans he, hechunk⟩
      · exact .inr ⟨by simp [hji, hjh], hwith.trans hjnone⟩
  · rw [heq, addPart, hfound]
    simp only [hchunk.type, hfindable.find_none hnone, ne_eq, not_true_eq_false, if_false, hret]

/-- The pieces in the order of their indices. -/
theorem map_getD_range (l : List Bytes) : (List.range l.length).map (fun j => l.getD j []) = l := by
  refine List.ext_getElem (by simp) fun j hj hj' => ?_
  rw [List.getElem_map, List.getElem_range, List.getD_eq_getElem?_getD, List.getElem?_eq_getElem hj', Option.getD_some]

theorem getD_mem {l : List Bytes} {j : ℕ} (hj : j < l.length) : l.getD j [] ∈ l := by
  rw [List.getD_eq_getElem?_getD, List.getElem?_eq_getElem hj]
  exact List.getElem_mem hj

/-- **While a part is missing nothing is merged.** -/
theorem Collecting.mergeParts_missing (hq : Collecting pieces held q) (hne : ∀ s ∈ pieces, s ≠ []) {j : ℕ}
    (hj : j < pieces.length) (hmiss : j ∉ held) {t : KnvNode} (ht : q.tree = some t) : q.mergeParts t = (q, 0) := by
  obtain ⟨t', ht', -, -, hfindable, hall⟩ := hq.tree
  cases ht.symm.trans ht'
  have hcheck : ∀ k ∈ List.range pieces.length,
      HoldsPart t k (pieces.getD k []) ∧ pieces.getD k [] ≠ [] ∨ t.withTag (partTag k) = [] := by
    intro k hk
    have hk' := List.mem_range.mp hk
    rcases hall k hk' with ⟨-, h⟩ | ⟨-, h⟩
    · exact .inl ⟨h, hne _ (getD_mem hk')⟩
    · exact .inr h
  have hjnone : t.withTag (partTag j) = [] := by
    rcases hall j hj with ⟨h, -⟩ | ⟨-, h⟩
    · exact absurd h hmiss
    · exact h
  unfold mergeParts
  rw [hq.count, checkParts_none (f := fun k => pieces.getD k []) hfindable hcheck ⟨j, List.mem_range.mpr hj, hjnone⟩]
  simp only [← ht]

/-- **When no part is missing the packet is decoded from all pieces.** -/
theorem Collecting.mergeParts_all (hq : Collecting pieces held q) (hne : ∀ s ∈ pieces, s ≠ []) (hn : 2 ≤ pieces.length)
    (hn' : pieces.length ≤ 255) (hs : IsPacket pieces.flatten) (hlen : pieces.flatten.length < 2 ^ 31)
    (hall : ∀ j < pieces.length, j ∈ held) {t : KnvNode} (ht : q.tree = some t) :
    q.mergeParts t = ({ decode pieces.flatten with errmsg := q.errmsg }, 0) := by
  obtain ⟨t', ht', -, -, hfindable, hparts⟩ := hq.tree
  cases ht.symm.trans ht'
  have hholds : ∀ k ∈ List.range pieces.length, HoldsPart t k (pieces.getD k []) := by
    intro k hk
    rcases hparts k (List.mem_range.mp hk) with ⟨-, h⟩ | ⟨hnot, -⟩
    · exact h
    · exact absurd (hall k (List.mem_range.mp hk)) hnot
  have hflat : ((List.range pieces.length).map fun k => pieces.getD k []).flatten = pieces.flatten := by
    rw [map_getD_range]
  have hpos : 0 < pieces.flatten.length := by
    obtain ⟨s, l, rfl⟩ := List.exists_cons_of_length_pos (by omega : 0 < pieces.length)
    rw [List.flatten_cons, List.length_append]
    have := List.length_pos_iff.mpr (hne s (List.mem_cons_self ..))
    omega
  have hcheck := checkParts_some (f := fun k => pieces.getD k []) hfindable
    (fun k hk => ⟨hholds k hk, hne _ (getD_mem (List.mem_range.mp hk))⟩)
    (show 0 + _ < 2 ^ 31 by rw [hflat, Nat.zero_add]; exact hlen)
  obtain ⟨t', htake⟩ := takeParts_ok (f := fun k => pieces.getD k []) hlen hfindable List.nodup_range
    (fun k hk => ⟨by have := List.mem_range.mp hk; omega, hholds k hk⟩)
    (show ([] : Bytes).length + _ ≤ _ by rw [hflat, List.length_nil, Nat.zero_add])
  rw [hflat] at hcheck htake
  rw [Nat.zero_add] at hcheck
  have hcheck' : checkParts (List.range pieces.length) 0 t = _ := hcheck
  have hnot : ¬(pieces.flatten.length : ℤ) ≤ 0 := by omega
  unfold mergeParts
  rw [hq.count, hcheck']
  simp only [hnot, if_false]
  rw [htake]
  simp only [List.nil_append, hs.assignBuf]

/-- A packet that has been cut into pieces, so many that they can be counted. -/
structure IsCut (pieces : List Bytes) : Prop where
  two_le : 2 ≤ pieces.length
  le : pieces.length ≤ 255
  ne_nil : ∀ s ∈ pieces, s ≠ []
  packet : IsPacket pieces.flatten
  /-- The length of a packet is an `int`. -/
  lt : pieces.flatten.length < 2 ^ 31

/-- Two packets are the same but for `errmsg`. -/
def EqButError (q q' : KnvProtocol) : Prop := { q with errmsg := q'.errmsg } = q'

/-- What `AddPartial` does with a part of the message that is collected. -/
inductive Added (pieces : List Bytes) (held : List ℕ) (i : ℕ) (q : KnvProtocol) : KnvProtocol × ℤ → Prop
  /-- The part has arrived already. -/
  | refused (e : String) (r : ℤ) : i ∈ held → r < 0 → Added pieces held i q ({ q with errmsg := e }, r)
  /-- Other parts are missing. -/
  | kept (q' : KnvProtocol) (j : ℕ) : i ∉ held → j < pieces.length → j ∉ i :: held → Collecting pieces (i :: held) q' →
      Added pieces held i q (q', 0)
  /-- No part is missing. -/
  | merged (e : String) : i ∉ held → (∀ j < pieces.length, j ∈ i :: held) →
      Added pieces held i q ({ decode pieces.flatten with errmsg := e }, 0)

/-- **One step**: a part is refused, it is kept, or it is the last one. -/
theorem Collecting.step (hc : IsCut pieces) (hq : Collecting pieces held q) (hw : IsPart pieces i w) :
    Added pieces held i q (q.addPartial (decode w) true) := by
  by_cases hi : i ∈ held
  · rw [hq.refused hw hc.two_le hc.le hi]
    exact .refused _ _ hi (by decide)
  · obtain ⟨t', hq', heq⟩ := hq.arrived hw hc.two_le hc.le (hc.ne_nil _ (getD_mem hw.lt)) hi
    rw [heq]
    by_cases hmiss : ∃ j < pieces.length, j ∉ i :: held
    · obtain ⟨j, hj, hjh⟩ := hmiss
      rw [hq'.mergeParts_missing hc.ne_nil hj hjh rfl]
      exact .kept _ j hi hj hjh hq'
    · simp only [not_exists, not_and, not_not] at hmiss
      rw [hq'.mergeParts_all hc.ne_nil hc.two_le hc.le hc.packet hc.lt hmiss rfl]
      exact .merged _ hi hmiss

/-- When a part is taken over instead of being collected. -/
theorem IsPart.taken (h : IsPart pieces i w)
    (hq : q.tree = none ∨ q.isComplete = true ∨ q.totalSplitCount ≠ (decode w).totalSplitCount) :
    q.addPartial (decode w) true = ({ decode w with errmsg := q.errmsg }, 0) := by
  rw [← h.assign q]
  obtain ⟨pt, hpt⟩ : ∃ pt, (decode w).tree = some pt := by
    have hv := h.packet.valid
    unfold KnvProtocol.isValid at hv
    split at hv
    · next pt hpt => exact ⟨pt, hpt⟩
    · cases hv
  unfold KnvProtocol.addPartial
  rw [h.packet.valid, hpt]
  cases ht : q.tree with
  | none => rfl
  | some t =>
    rcases hq with hq | hq | hq
    · rw [hq] at ht
      cases ht
    · simp [hq]
    · simp [bne_iff_ne.mpr hq]

end

/-! ### Runs -/

/-- Packets with parts arrive one after the other. -/
def feed (p : KnvProtocol) (ws : List Bytes) : KnvProtocol := ws.foldl (fun p w => (p.addPartial (decode w) true).1) p

theorem feed_concat (p : KnvProtocol) (ws : List Bytes) (w : Bytes) :
    p.feed (ws ++ [w]) = ((p.feed ws).addPartial (decode w) true).1 := by
  rw [feed, feed, List.foldl_append, List.foldl_cons, List.foldl_nil]

section

variable {pieces : List Bytes}

/-- Another order of the parts, or a part twice, is nothing to a packet that collects them. -/
theorem Collecting.congr {held held' : List ℕ} {q : KnvProtocol} (h : Collecting pieces held q)
    (hiff : ∀ j, j ∈ held' ↔ j ∈ held) : Collecting pieces held' q := by
  obtain ⟨t, ht, htag, htype, hfindable, hall⟩ := h.tree
  exact ⟨h.retcode, h.count, h.body, t, ht, htag, htype, hfindable, fun j hj => by rw [hiff]; exact hall j hj⟩

/-- **A run**: as long as a part is missing, the packet has what has arrived. -/
theorem collecting_feed (hc : IsCut pieces) {arrived : List (ℕ × Bytes)} (harr : ∀ x ∈ arrived, IsPart pieces x.1 x.2)
    (hmiss : ∃ j < pieces.length, j ∉ arrived.map Prod.fst) :
    arrived = [] ∨ Collecting pieces (arrived.map Prod.fst) (({} : KnvProtocol).feed (arrived.map Prod.snd)) := by
  induction arrived using List.reverseRecOn with
  | nil => exact .inl rfl
  | append_singleton l x ih =>
    right
    obtain ⟨i, w⟩ := x
    obtain ⟨j, hj, hjmiss⟩ := hmiss
    rw [List.map_append, List.mem_append, not_or] at hjmiss
    have hw : IsPart pieces i w := harr (i, w) (List.mem_append_right _ (List.mem_singleton_self _))
    have hl := ih (fun y hy => harr y (List.mem_append_left _ hy)) ⟨j, hj, hjmiss.1⟩
    rw [List.map_append, List.map_append, List.map_singleton, List.map_singleton, feed_concat]
    have hmem : ∀ k, k ∈ l.map Prod.fst ++ [i] ↔ k ∈ i :: l.map Prod.fst := fun k => by simp [or_comm]
    rcases hl with rfl | hl
    · rw [hw.taken (.inl rfl)]
      exact ((hw.collecting hc.le).withError _).congr hmem
    · have hstep := hl.step hc hw
      generalize hr : (({} : KnvProtocol).feed (l.map Prod.snd)).addPartial (decode w) true = r at hstep
      cases hstep with
      | refused e _ hi _ => exact (hl.withError e).congr fun k => (hmem k).trans ⟨fun hk => by
          rcases List.mem_cons.mp hk with rfl | hk
          · exact hi
          · exact hk, List.mem_cons_of_mem _⟩
      | kept q' _ _ _ _ hq' => exact hq'.congr hmem
      | merged e _ hall =>
        have := hall j hj
        exact absurd ((hmem j).mpr this) (by simpa using hjmiss)

/-- **The parts of a packet can arrive in any order.** As long as one of them is missing the packet is not complete, and a
part that has arrived already is refused and changes nothing. The last one makes it the packet that was cut. -/
theorem addPartial_any_order (hc : IsCut pieces) {arrived : List (ℕ × Bytes)} (harr : ∀ x ∈ arrived, IsPart pieces x.1 x.2)
    (hmiss : ∃ j < pieces.length, j ∉ arrived.map Prod.fst) {i : ℕ} {w : Bytes} (hw : IsPart pieces i w) :
    (({} : KnvProtocol).feed (arrived.map Prod.snd)).isComplete = false ∧
      (i ∈ arrived.map Prod.fst → ∃ e r, r < 0 ∧ (({} : KnvProtocol).feed (arrived.map Prod.snd)).addPartial
        (decode w) true =
        ({ ({} : KnvProtocol).feed (arrived.map Prod.snd) with errmsg := e }, r)) ∧
      (i ∉ arrived.map Prod.fst →
        ((({} : KnvProtocol).feed (arrived.map Prod.snd)).addPartial (decode w) true).2 = 0 ∧
        ((∀ j < pieces.length, j ≠ i → j ∈ arrived.map Prod.fst) →
          EqButError ((({} : KnvProtocol).feed (arrived.map Prod.snd)).addPartial (decode w) true).1
            (decode pieces.flatten))) := by
  rcases collecting_feed hc harr hmiss with rfl | hq
  · refine ⟨rfl, fun hi => absurd hi List.not_mem_nil, fun _ => ?_⟩
    have htaken := hw.taken (q := {}) (.inl rfl)
    refine ⟨congrArg Prod.snd htaken, fun hall => ?_⟩
    obtain ⟨j, hj, hji⟩ : ∃ j < pieces.length, j ≠ i := by
      have htwo := hc.two_le
      by_cases h0 : i = 0
      · exact ⟨1, by omega, by omega⟩
      · exact ⟨0, by omega, by omega⟩
    exact absurd (hall j hj hji) List.not_mem_nil
  · refine ⟨hq.not_isComplete hc.two_le, ?_⟩
    have hstep := hq.step hc hw
    generalize (({} : KnvProtocol).feed (arrived.map Prod.snd)).addPartial (decode w) true = r at hstep
    cases hstep with
    | refused e r hi hr => exact ⟨fun _ => ⟨e, r, hr, rfl⟩, fun hni => absurd hi hni⟩
    | kept q' j hi hj hjh _ =>
      refine ⟨fun h => absurd h hi, fun _ => ⟨rfl, fun hall => ?_⟩⟩
      rw [List.mem_cons, not_or] at hjh
      exact absurd (hall j hj hjh.1) hjh.2
    | merged e hi _ => exact ⟨fun h => absurd h hi, fun _ => ⟨rfl, fun _ => rfl⟩⟩

end

/-- A packet with a sequence number and a body. -/
def smallPacket (seq : UInt64) (body : Bytes) : Bytes :=
  (strField knvPkgTag ((strField knvPkgHdrTag (intField knvPkgHdrSeqTag seq).encode).encode ++
    (strField knvPkgBdyTag body).encode)).encode

/-- Its two pieces. -/
def smallPieces (seq : UInt64) (body : Bytes) : List Bytes :=
  [(smallPacket seq body).take 11, (smallPacket seq body).drop 11]

/-- A packet with one of them. -/
def smallPart (seq : UInt64) (body : Bytes) (i : ℕ) : Bytes :=
  (strField knvPkgTag ((strField knvPkgHdrTag ((intField knvPkgHdrSeqTag seq).encode ++
    ((intField knvPkgHdrTotalSplitCount 2).encode ++ (intField knvPkgHdrCurrSplitIndex (UInt64.ofNat i)).encode))).encode ++
    (strField (partTag i) ((smallPieces seq body).getD i [])).encode)).encode

theorem isCut_small : IsCut (smallPieces 1 [65]) ∧ IsCut (smallPieces 2 [66]) :=
  ⟨⟨by decide, by decide, by decide, ⟨by decide, by decide +kernel⟩, by decide⟩,
    ⟨by decide, by decide, by decide, ⟨by decide, by decide +kernel⟩, by decide⟩⟩

theorem isPart_small : IsPart (smallPieces 1 [65]) 0 (smallPart 1 [65] 0) ∧
    IsPart (smallPieces 1 [65]) 1 (smallPart 1 [65] 1) ∧
    IsPart (smallPieces 2 [66]) 1 (smallPart 2 [66] 1) :=
  ⟨⟨⟨by decide, by decide +kernel⟩, by decide +kernel, by decide +kernel, by decide +kernel, by decide,
      Option.isNone_iff_eq_none.mp (by decide +kernel), by decide +kernel⟩,
    ⟨⟨by decide, by decide +kernel⟩, by decide +kernel, by decide +kernel, by decide +kernel, by decide,
      Option.isNone_iff_eq_none.mp (by decide +kernel), by decide +kernel⟩,
    ⟨⟨by decide, by decide +kernel⟩, by decide +kernel, by decide +kernel, by decide +kernel, by decide,
      Option.isNone_iff_eq_none.mp (by decide +kernel), by decide +kernel⟩⟩

/-- The second part comes after the first. -/
theorem addPartial_any_order_small :
    ((({} : KnvProtocol).feed [smallPart 1 [65] 0]).addPartial (decode (smallPart 1 [65] 1)) true).2 = 0 ∧
      EqButError ((({} : KnvProtocol).feed [smallPart 1 [65] 0]).addPartial (decode (smallPart 1 [65] 1)) true).1
        (decode (smallPieces 1 [65]).flatten) := by
  have harr : ∀ x ∈ [(0, smallPart 1 [65] 0)], IsPart (smallPieces 1 [65]) x.1 x.2 := by
    intro x hx
    rw [List.mem_singleton.mp hx]
    exact isPart_small.1
  obtain ⟨-, -, hlast⟩ := addPartial_any_order isCut_small.1 harr ⟨1, by decide, by decide⟩ isPart_small.2.1
  obtain ⟨hret, hall⟩ := hlast (by decide)
  exact ⟨hret, hall (by decide)⟩

/-! ### Two messages -/

/-- A message that was whole before it was cut. -/
structure IsMessage (pieces : List Bytes) : Prop where
  cut : IsCut pieces
  whole : (decode pieces.flatten).isComplete = true

/-- A packet with a part of a message, and its sequence number. -/
def PartOf (pieces : List Bytes) (w : Bytes) : Prop :=
  ∃ i, IsPart pieces i w ∧ (decode w).seq = (decode pieces.flatten).seq

/-- A packet that is fed with the parts of two messages has nothing, some parts of one of them, or one of them. -/
inductive Stage (A B : List Bytes) (q : KnvProtocol) : Prop
  | empty : q.tree = none → Stage A B q
  | collecting {pieces : List Bytes} {held : List ℕ} : pieces = A ∨ pieces = B → Collecting pieces held q → Stage A B q
  | merged {pieces : List Bytes} : pieces = A ∨ pieces = B → EqButError q (decode pieces.flatten) → Stage A B q

theorem EqButError.isComplete {q q' : KnvProtocol} (h : EqButError q q') : q.isComplete = q'.isComplete := by
  rw [← show _ = q' from h]
  rfl

/-- **One step** of two messages with different counts of parts. -/
theorem Stage.step {A B : List Bytes} (hA : IsMessage A) (hB : IsMessage B) (hAB : A.length ≠ B.length) {q : KnvProtocol}
    (hq : Stage A B q) {w : Bytes} (hw : PartOf A w ∨ PartOf B w) : Stage A B (q.addPartial (decode w) true).1 := by
  obtain ⟨pieces, hpieces, hmsg, i, hpart⟩ : ∃ pieces, (pieces = A ∨ pieces = B) ∧ IsMessage pieces ∧
    ∃ i, IsPart pieces i w := by
    rcases hw with ⟨i, hi, -⟩ | ⟨i, hi, -⟩
    · exact ⟨A, .inl rfl, hA, i, hi⟩
    · exact ⟨B, .inr rfl, hB, i, hi⟩
  have htaken : q.addPartial (decode w) true = ({ decode w with errmsg := q.errmsg }, 0) →
      Stage A B (q.addPartial (decode w) true).1 := by
    intro h
    rw [h]
    exact .collecting hpieces ((hpart.collecting hmsg.cut.le).withError _)
  cases hq with
  | empty hnone => exact htaken (hpart.taken (.inl hnone))
  | merged hone heq =>
    refine htaken (hpart.taken (.inr (.inl ?_)))
    rw [heq.isComplete]
    rcases hone with rfl | rfl
    · exact hA.whole
    · exact hB.whole
  | @collecting pieces' held hone hcol =>
    by_cases hsame : pieces' = pieces
    · subst hsame
      have hstep := hcol.step hmsg.cut hpart
      generalize q.addPartial (decode w) true = r at hstep
      cases hstep with
      | refused e _ _ _ => exact .collecting hone (hcol.withError e)
      | kept q' _ _ _ _ hq' => exact .collecting hone hq'
      | merged e _ _ => exact .merged hone rfl
    · refine htaken (hpart.taken (.inr (.inr fun hcount => ?_)))
      have hlen : pieces'.length = pieces.length := by
        rw [← hcol.count, ← hpart.count, hcount]
      rcases hone with rfl | rfl <;> rcases hpieces with rfl | rfl
      · exact hsame rfl
      · exact hAB hlen
      · exact hAB hlen.symm
      · exact hsame rfl

/-- **Parts of messages with different counts of parts are not mixed**: whatever parts of them arrive in whatever order, a
packet that has been completed is one of the two. -/
theorem merged_of_one {A B : List Bytes} (hA : IsMessage A) (hB : IsMessage B) (hAB : A.length ≠ B.length) {ws : List Bytes}
    (hws : ∀ w ∈ ws, PartOf A w ∨ PartOf B w) (hcomplete : (({} : KnvProtocol).feed ws).isComplete = true) :
    EqButError (({} : KnvProtocol).feed ws) (decode A.flatten) ∨ EqButError (({} : KnvProtocol).feed ws)
      (decode B.flatten) := by
  have hstage : Stage A B (({} : KnvProtocol).feed ws) := by
    clear hcomplete
    induction ws using List.reverseRecOn with
    | nil => exact .empty rfl
    | append_singleton l w ih =>
      rw [feed_concat]
      exact (ih fun v hv => hws v (List.mem_append_left _ hv)).step hA hB hAB
        (hws w (List.mem_append_right _ (List.mem_singleton_self _)))
  cases hstage with
  | empty hnone =>
    rw [isComplete, KnvProtocol.isValid, hnone] at hcomplete
    cases hcomplete
  | @collecting pieces held hone hcol =>
    have htwo : 2 ≤ pieces.length := by
      rcases hone with rfl | rfl
      · exact hA.cut.two_le
      · exact hB.cut.two_le
    exact absurd (hcomplete.symm.trans (hcol.not_isComplete htwo)) (by decide)
  | merged hone heq =>
    rcases hone with rfl | rfl
    · exact .inl heq
    · exact .inr heq

/-- The packet with number 2 in three pieces. -/
def threePieces : List Bytes :=
  [(smallPacket 2 [66]).take 5, ((smallPacket 2 [66]).drop 5).take 6, (smallPacket 2 [66]).drop 11]

theorem isMessage_small : IsMessage (smallPieces 1 [65]) ∧ IsMessage (smallPieces 2 [66]) :=
  ⟨⟨isCut_small.1, by decide +kernel⟩, ⟨isCut_small.2, by decide +kernel⟩⟩

theorem isMessage_threePieces : IsMessage threePieces :=
  ⟨⟨by decide, by decide, by decide, ⟨by decide, by decide +kernel⟩, by decide⟩, by decide +kernel⟩

theorem partOf_small : PartOf (smallPieces 1 [65]) (smallPart 1 [65] 0) ∧ PartOf (smallPieces 1 [65]) (smallPart 1 [65] 1) ∧
    PartOf (smallPieces 2 [66]) (smallPart 2 [66] 1) :=
  ⟨⟨0, isPart_small.1, by decide +kernel⟩, ⟨1, isPart_small.2.1, by decide +kernel⟩,
    ⟨1, isPart_small.2.2, by decide +kernel⟩⟩

/-- Two parts of a message, with another one in three parts about. -/
theorem merged_of_one_small :
    EqButError (({} : KnvProtocol).feed [smallPart 1 [65] 0, smallPart 1 [65] 1]) (decode (smallPieces 1 [65]).flatten) ∨
      EqButError (({} : KnvProtocol).feed [smallPart 1 [65] 0, smallPart 1 [65] 1]) (decode threePieces.flatten) := by
  refine merged_of_one isMessage_small.1 isMessage_threePieces (by decide) (fun w hw => .inl ?_) (by decide +kernel)
  rcases List.mem_cons.mp hw with rfl | hw
  · exact partOf_small.1
  · rw [List.mem_singleton.mp hw]
    exact partOf_small.2.1

/-- Parts of messages with the same count of parts are mixed, whatever their sequence numbers are. -/
theorem not_merged_of_one : ¬∀ A B : List Bytes, IsMessage A → IsMessage B →
    (decode A.flatten).seq ≠ (decode B.flatten).seq → ∀ ws : List Bytes, (∀ w ∈ ws, PartOf A w ∨ PartOf B w) →
    (({} : KnvProtocol).feed ws).isComplete = true →
    EqButError (({} : KnvProtocol).feed ws) (decode A.flatten) ∨ EqButError (({} : KnvProtocol).feed ws)
      (decode B.flatten) := by
  intro h
  obtain ⟨q, hq⟩ : ∃ q, q = ({} : KnvProtocol).feed [smallPart 1 [65] 0, smallPart 2 [66] 1] := ⟨_, rfl⟩
  have hseq : q.seq = 1 := by
    rw [hq]
    decide +kernel
  have hbody : q.getBody.map (·.val.str) = some [66] := by
    rw [hq]
    decide +kernel
  have hmixed := h _ _ isMessage_small.1 isMessage_small.2 (by decide +kernel) [smallPart 1 [65] 0, smallPart 2 [66] 1]
    (fun w hw => by
      rcases List.mem_cons.mp hw with rfl | hw
      · exact .inl partOf_small.1
      · rw [List.mem_singleton.mp hw]
        exact .inr partOf_small.2.2) (by decide +kernel)
  rw [← hq] at hmixed
  rcases hmixed with heq | heq
  · have hA : (decode (smallPieces 1 [65]).flatten).getBody.map (·.val.str) = some [65] := by decide +kernel
    rw [← show _ = decode (smallPieces 1 [65]).flatten from heq] at hA
    have hsame : q.getBody.map (·.val.str) = some [65] := hA
    rw [hbody] at hsame
    exact absurd hsame (by decide)
  · have hB : (decode (smallPieces 2 [66]).flatten).seq = 2 := by decide +kernel
    rw [← show _ = decode (smallPieces 2 [66]).flatten from heq] at hB
    have hsame : q.seq = 2 := hB
    rw [hseq] at hsame
    exact absurd hsame (by decide)

end KnvProtocol

end KnvProto
