import KnvProto.Packet.Removal

/-!
# One body in the other format

`EncodeCompatOidb`: a start token, the lengths of the header's value and of the body's value as
four bytes each, the two values, and an end token. `InitFromOidbPkg` gives the bytes of the body
back as the value of one body, unless they begin like a body of this format: then it takes them
for bodies.

The encoder reads `body`, and the packet that the decoder makes of bodies of this format has none,
although its tree has bodies. It writes the header as it is, and not the command that is kept
beside it.

`relayed_iff` says when a packet comes back. What has been prepared or decoded is in step
(`inStep_prepared`, `inStep_decode`).

## The model

A body without a value, or none, is written as no bytes, and so is one that is a number.
-/

namespace KnvProto

open PathEdit KnvNode

namespace KnvProtocol

/-! ### Encoding -/

/-- The bytes that `GetValue` gives, if there is a node and it has a value. -/
def valueBytes (n : Option KnvNode) : Bytes :=
  match n with
  | none => []
  | some n => match n.getValue.2 with
    | .ok v => v.str
    | .error _ => []

/-- `EncodeCompatOidb(mem, body_tree)`. -/
def encodeCompatOidbTree (bodyTree : Option KnvNode) (p : KnvProtocol) : Except KnvErr Bytes :=
  match p.headerValue with
  | .error e => .error e
  | .ok hdr =>
    let bdy := valueBytes bodyTree
    if 2 ^ 31 ≤ hdr.length + bdy.length + 10 then .error ⟨-4, "UcMemManager::Alloc failed"⟩
    else .ok (oidbFrame hdr bdy.length bdy)

/-- `EncodeCompatOidb(s)`. -/
def encodeCompatOidb (p : KnvProtocol) : Except KnvErr Bytes :=
  if !p.isValid then .error ⟨-1, "Protocol is not initialized"⟩
  else if p.retcode ≠ 0 then p.encodeCompatOidbTree none
  else p.encodeCompatOidbTree p.bodyNode

end KnvProtocol

/-! ### Nodes -/

namespace KnvNode

variable {n : KnvNode}

theorem metaInt_asRead (n : KnvNode) (t : UInt32) : KnvProtocol.metaInt n.asRead t = KnvProtocol.metaInt n t := by
  have hvalid : n.asRead.isValid = n.isValid := by rw [isValid, isValid, asRead, (expandSame ..).tag]
  have hread : (n.asRead.getMeta {} t).2 = (n.getMeta {} t).2 := by
    unfold getMeta
    rw [hvalid, innerExpand_of_expanded n.expanded_asRead]
    split <;> rfl
  rw [KnvProtocol.metaInt, KnvProtocol.metaInt, hread]

/-- The address, the key and the size of a node do not matter to what a number among its metas is. -/
theorem metaInt_relabel (n : KnvNode) (a : ℕ) (key : KnvKey) (sz : ℤ) (t : UInt32) :
    KnvProtocol.metaInt { n with self := a, key := key, evalSz := sz } t = KnvProtocol.metaInt n t := by
  have hread : (getMeta {} t { n with self := a, key := key, evalSz := sz }).2 = (n.getMeta {} t).2 := by
    unfold getMeta
    rw [innerExpand_relabel, show isValid { n with self := a, key := key, evalSz := sz } = n.isValid from rfl]
    split <;> rfl
  rw [KnvProtocol.metaInt, KnvProtocol.metaInt, hread]

theorem metaInt_at' (n : KnvNode) (a : ℕ) (t : UInt32) : KnvProtocol.metaInt (n.at' a) t = KnvProtocol.metaInt n t :=
  metaInt_relabel n a n.key n.evalSz t

/-- There is no number in a node without metas. -/
theorem metaInt_of_nil {n : KnvNode} (hexp : n.expanded = true) (hms : n.metalist = []) (t : UInt32) :
    KnvProtocol.metaInt n t = 0 := by
  have hread : (n.getMeta {} t).2 = none := by
    unfold getMeta
    split
    · rfl
    · rw [innerExpand_of_expanded hexp]
      simp [metaAt, hms]
  rw [KnvProtocol.metaInt, hread]

end KnvNode

namespace KnvProtocol

/-! ### Decoding -/

/-- The bytes begin like a body of this format. -/
def LooksTagged (bs : Bytes) : Prop := bs.take 2 = [0xea, 0xda]

instance (bs : Bytes) : Decidable (LooksTagged bs) := inferInstanceAs (Decidable (_ = _))

/-- What the decoder asks of the bytes after the header. -/
theorem ntohs_end_iff (bs : Bytes) : ntohs (bs ++ [etxIpv6Pb]) = stxKnvBdy ↔ LooksTagged bs := by
  have hsum : ∀ x y : UInt8, ntohs [x, y] = y.toNat + 256 * x.toNat := fun x y => by simp [ntohs, Varint.ofLeBytes]
  rcases bs with _ | ⟨x, _ | ⟨y, bs⟩⟩
  · exact iff_of_false (by decide) (by decide)
  · refine iff_of_false (fun h => ?_) (by simp [LooksTagged])
    have hx : etxIpv6Pb.toNat + 256 * x.toNat = 0xeada := (hsum x etxIpv6Pb).symm.trans h
    have hetx : etxIpv6Pb.toNat = 0x29 := rfl
    omega
  · have htake : ntohs (x :: y :: bs ++ [etxIpv6Pb]) = ntohs [x, y] := rfl
    rw [htake, hsum, LooksTagged, show stxKnvBdy = 0xeada from rfl]
    simp only [List.take_succ_cons, List.take_zero, List.cons.injEq, and_true]
    rw [← UInt8.toNat_inj, ← UInt8.toNat_inj]
    have hx := x.toNat_lt
    have hy := y.toNat_lt
    have hea : (0xea : UInt8).toNat = 0xea := rfl
    have hda : (0xda : UInt8).toNat = 0xda := rfl
    omega

/-- The header that is made of bytes. -/
def madeHeader (hdr : Bytes) : KnvNode := initNode knvPkgHdrTag .string (some { str := hdr })

/-- The body that is made of bytes. -/
def madeBody (bdy : Bytes) : KnvNode := initNode knvPkgBdyTag .string (some { str := bdy })

variable {hdr bdy : Bytes}

/-- **What is encoded is taken apart** at the lengths in front. -/
theorem initFromOidbPkg_frame (hlt : hdr.length + bdy.length + 10 < 2 ^ 31) :
    initFromOidbPkg (oidbFrame hdr bdy.length bdy) {} =
      if LooksTagged bdy then initBodies (madeHeader hdr) bdy {} else initCompat (madeHeader hdr) bdy {} := by
  have hframe : oidbFrame hdr bdy.length bdy = oidbFront hdr bdy.length bdy ++ [etxIpv6Pb] := by
    rw [oidbFrame, Nat.sub_self]
    rfl
  have hlen : (oidbFront hdr bdy.length bdy ++ [etxIpv6Pb]).length = hdr.length + bdy.length + 10 := by
    rw [List.length_append, length_oidbFront]
    rfl
  have hwrap : Int.bmod ((hdr.length : ℤ) + bdy.length + 10) (2 ^ 32) = hdr.length + bdy.length + 10 :=
    Int.bmod_eq_of_le (by omega) (by omega)
  have hnine : (oidbFront hdr bdy.length bdy ++ [etxIpv6Pb]).drop 9 = hdr ++ (bdy ++ [etxIpv6Pb]) := by
    rw [show 9 = 5 + 4 from rfl, ← List.drop_drop, drop_five_oidbFront, List.drop_left' (length_htonl _)]
  have hlast : (oidbFront hdr bdy.length bdy ++ [etxIpv6Pb])[hdr.length + bdy.length + 9]? = some etxIpv6Pb := by
    rw [List.getElem?_append_right (by rw [length_oidbFront]), length_oidbFront, Nat.sub_self]
    rfl
  unfold initFromOidbPkg
  rw [hframe, drop_one_oidbFront, drop_five_oidbFront, ntohl_htonl (by omega), ntohl_htonl (by omega), hlen, hnine,
    if_neg (by omega)]
  simp only [hwrap, drop_header_oidbFront]
  have hlast' : ((hdr.length : ℤ) + bdy.length + 10 - 1).toNat = hdr.length + bdy.length + 9 := by omega
  rw [if_neg (by push_cast; omega), hlast', hlast, if_neg (not_or.mpr ⟨by omega, not_not_intro rfl⟩),
    List.take_left' rfl, List.take_left' rfl]
  simp only [ntohs_end_iff]
  rfl

/-- A root that gets another child at the end. -/
theorem rooted_insertChild {t c : KnvNode} (ht : Rooted t) (htype : t.type = .string) (hsz : 0 ≤ c.evalSz) :
    ∃ t' msgs, insertChild c true true {} t = ⟨t', msgs, .ok 0⟩ ∧ Rooted t' ∧ t'.type = .string ∧
      t'.childlist = t.childlist ++ [c.at' t.slots] ∧ t'.slots = t.slots + 1 := by
  have hkeep := Keeps.insertChild (P := fun _ => True) ht c true true {}
  have hown := insertChild_own ht.valid htype ht.expanded hsz {}
  have htouch := touched_finish (t.linkChild c true) c.evalSz
  refine ⟨(insertChild c true true {} t).node, (insertChild c true true {} t).msgs, ?_, hkeep.rooted, ?_, ?_, ?_⟩
  · rw [hown]
    rfl
  · rw [hown, htouch.type]
    exact htype
  · rw [hown, htouch.childlist, childlist_linkChild, if_pos rfl]
  · rw [hown, htouch.slots]
    rfl

/-- **Bytes that are taken for a value** are that of one body after the header. -/
theorem initCompat_made (hdr bdy : Bytes) : ∃ t, Headed t ((madeHeader hdr).at' 0) (initCompat (madeHeader hdr) bdy {}) ∧
    t.childlist = [(madeHeader hdr).at' 0, (madeBody bdy).at' 1] ∧
    (initCompat (madeHeader hdr) bdy {}).body = some (.child 1) := by
  obtain ⟨t₁, msgs₁, h₁, hroot₁, htype₁, hlist₁, hslots₁⟩ := rooted_insertChild (c := madeHeader hdr) rooted_initNode rfl
    (shape_initNode ..).evaluated
  obtain ⟨t₂, msgs₂, h₂, hroot₂, -, hlist₂, -⟩ :=
    rooted_insertChild (c := madeBody bdy) hroot₁ htype₁ (shape_initNode ..).evaluated
  have hlist₁' : t₁.childlist = [(madeHeader hdr).at' 0] := hlist₁
  have hlist₂' : t₂.childlist = [(madeHeader hdr).at' 0, (madeBody bdy).at' 1] := by
    rw [hlist₂, hlist₁', hslots₁]
    rfl
  have heq : initCompat (madeHeader hdr) bdy {} = { tree := some t₂, header := some 0, body := some (.child 1) } := by
    have hnew : KnvNode.new knvPkgBdyTag .string .varint none (some { str := bdy }) = .ok (madeBody bdy) := rfl
    have htree : newTree knvPkgTag none = .ok (initNode knvPkgTag .string none) := rfl
    unfold initCompat
    rw [hnew, htree]
    simp only [h₁, h₂, hlist₁', hlist₂']
    rfl
  rw [heq]
  exact ⟨t₂, ⟨rfl, hroot₂, hlist₂' ▸ List.mem_cons_self .., rfl, rfl⟩, hlist₂', rfl⟩

/-! ### Packets that come back -/

/-- The bodies in the tree. -/
def bodies (p : KnvProtocol) : List KnvNode :=
  match p.tree with
  | none => []
  | some t => t.withTag knvPkgBdyTag

/-- The value of a header has a command, a subcommand and a sequence number. -/
structure Says (hdr : Bytes) (cmd subcmd : UInt32) (seq : UInt64) : Prop where
  cmd : (metaInt (madeHeader hdr) knvPkgHdrCmdTag).toUInt32 = cmd
  subcmd : (metaInt (madeHeader hdr) knvPkgHdrSubcmdTag).toUInt32 = subcmd
  seq : metaInt (madeHeader hdr) knvPkgHdrSeqTag = seq

/-- A value is left to be expanded, or is no message. -/
theorem isFolded_initNode (tag : UInt32) (type : PbType) (v : PbVal) (fieldSz : ℕ) (noKey : Bool) :
    (initNode tag type (some v) true fieldSz noKey).isFolded = true := by
  simp [isFolded, initNode]

/-- The value of a node that is made of a field. -/
theorem valueBytes_initNode {tag : UInt32} (htag : tag ≠ 0) (v : PbVal) (fieldSz : ℕ) (noKey : Bool) (type : PbType)
    (a : ℕ) :
    valueBytes (some ((initNode tag type (some v) true fieldSz noKey).at' a)) = (v.pick type).str := by
  have hvalid : ((initNode tag type (some v) true fieldSz noKey).at' a).isValid = true := isValid_of_tag rfl htag
  have hfold : ((initNode tag type (some v) true fieldSz noKey).at' a).isFolded = true :=
    isFolded_initNode tag type v fieldSz noKey
  rw [valueBytes, getValue_of_folded hvalid hfold]
  rfl

theorem valueBytes_madeBody (bdy : Bytes) (a : ℕ) : valueBytes (some ((madeBody bdy).at' a)) = bdy :=
  valueBytes_initNode (by decide) ..

/-- **A value of a body that does not look like bodies** comes back as the value of the one body. -/
theorem decode_value (hlt : hdr.length + bdy.length + 10 < 2 ^ 31) (hnot : ¬LooksTagged bdy) :
    (decode (oidbFrame hdr bdy.length bdy)).isValid = true ∧
      (∀ cmd subcmd seq, Says hdr cmd subcmd seq ↔ (decode (oidbFrame hdr bdy.length bdy)).cmd = cmd ∧
        (decode (oidbFrame hdr bdy.length bdy)).subcmd = subcmd ∧ (decode (oidbFrame hdr bdy.length bdy)).seq = seq) ∧
      ∃ c, (decode (oidbFrame hdr bdy.length bdy)).bodies = [c] ∧ (decode (oidbFrame hdr bdy.length bdy)).getBody = some c ∧
        valueBytes (some c) = bdy := by
  obtain ⟨t, H, hlist, hbody⟩ := initCompat_made hdr bdy
  have hdec : decode (oidbFrame hdr bdy.length bdy) = (initCompat (madeHeader hdr) bdy {}).initHeaderInfo := by
    rw [decode, ofBuf, if_pos (show (oidbFrame hdr bdy.length bdy).headD 0 = stxIpv6Pb from rfl), initFromOidbPkg_frame hlt,
      if_neg hnot, H.initProtocol]
  obtain ⟨-, -, hstand⟩ := initHeaderInfo_spec (initCompat (madeHeader hdr) bdy {})
  obtain ⟨t', H', hrep, heq⟩ := H.initHeaderInfo
  obtain ⟨t₀, ht₀, hsame⟩ := hstand t' H'.tree
  cases H.tree.symm.trans ht₀
  -- the header is looked into, the body stays
  have hchildren : ∃ x, t'.childlist = [x, (madeBody bdy).at' 1] := by
    have hmap := hsame.children
    rw [hlist] at hmap
    obtain ⟨x, y, hcs⟩ := List.length_eq_two.mp (show t'.childlist.length = 2 by simpa using congrArg List.length hmap)
    simp only [hcs, List.map_cons, List.map_nil, List.cons.injEq, Prod.mk.injEq, and_true] at hmap
    obtain ⟨-, hself, htag, -⟩ := hmap
    refine ⟨x, ?_⟩
    rcases hrep.old y (hcs ▸ List.mem_cons_of_mem _ (List.mem_singleton_self y)) with rfl | ⟨hy, -⟩
    · have hhdr : knvPkgHdrTag = knvPkgBdyTag := H'.tag.symm.trans htag
      exact absurd hhdr (by decide)
    · rw [hlist] at hy
      rcases List.mem_cons.mp hy with rfl | hy
      · exact absurd (show (0 : ℕ) = 1 from hself) (by decide)
      · rw [hcs, List.mem_singleton.mp hy]
  obtain ⟨x, hchildren⟩ := hchildren
  have hx : x = ((madeHeader hdr).at' 0).asRead := by
    have hmem := H'.mem
    rw [hchildren] at hmem
    rcases List.mem_cons.mp hmem with h | h
    · exact h.symm
    · have hhdr := H'.tag
      rw [List.mem_singleton.mp h] at hhdr
      exact absurd (show knvPkgBdyTag = knvPkgHdrTag from hhdr) (by decide)
  have hbodies : (initCompat (madeHeader hdr) bdy {}).initHeaderInfo.bodies = [(madeBody bdy).at' 1] := by
    have hxt : x.tag ≠ knvPkgBdyTag := by
      rw [hx, H'.tag]
      decide
    have hbt : ((madeBody bdy).at' 1).tag = knvPkgBdyTag := rfl
    rw [bodies, H'.tree]
    simp [withTag, hchildren, hxt, hbt]
  rw [hdec]
  refine ⟨H'.isValid, fun cmd subcmd seq => ?_, _, hbodies, ?_, valueBytes_madeBody bdy 1⟩
  · have hread : ∀ u, metaInt ((madeHeader hdr).at' 0).asRead u = metaInt (madeHeader hdr) u := fun u => by
      rw [metaInt_asRead, metaInt_at']
    rw [heq]
    change _ ↔ (metaInt ((madeHeader hdr).at' 0).asRead knvPkgHdrCmdTag).toUInt32 = cmd ∧
      (metaInt ((madeHeader hdr).at' 0).asRead knvPkgHdrSubcmdTag).toUInt32 = subcmd ∧
      metaInt ((madeHeader hdr).at' 0).asRead knvPkgHdrSeqTag = seq
    simp only [hread]
    exact ⟨fun h => ⟨h.cmd, h.subcmd, h.seq⟩, fun h => ⟨h.1, h.2.1, h.2.2⟩⟩
  · have hpointer : (initCompat (madeHeader hdr) bdy {}).initHeaderInfo.body = some (.child 1) := by
      rw [heq]
      exact hbody
    have hmem : (madeBody bdy).at' 1 ∈ t'.childlist := hchildren ▸ List.mem_cons_of_mem _ (List.mem_singleton_self _)
    have hfind : childAt t' 1 = some ((madeBody bdy).at' 1) := find?_self H'.rooted.shape.nodup_children hmem
    rw [getBody, if_pos H'.isValid, bodyNode, hpointer, H'.tree]
    simp only [Option.bind_some, hfind]
    rfl

/-- The children of a node that is made of a value are made of fields of it. -/
theorem mem_children_of_value {bs : Bytes} {c : KnvNode}
    (hc : c ∈ ((initNode knvPkgTag .string (some { str := bs })).innerExpand false false).childlist) :
    ∃ f ∈ (pbScan bs).1, ∃ k a, c = (ofField f k).at' a := by
  revert hc
  refine innerExpand_rule (P := fun n => c ∈ n.childlist → ∃ f ∈ (pbScan bs).1, ∃ k a, c = (ofField f k).at' a)
    (fun _ hc => absurd hc List.not_mem_nil) fun n _ hn hc => ?_
  cases hn with
  | leaf _ => exact absurd hc List.not_mem_nil
  | cut _ _ _ => exact absurd hc List.not_mem_nil
  | message _ _ _ _ _ _ _ =>
    obtain ⟨f, hf, a, rfl⟩ := mem_parsed (List.mem_filter.mp hc).1
    exact ⟨f, hf, _, a, rfl⟩

/-- Bytes that are taken for bodies are put behind the header. -/
theorem mem_initBodies {t c : KnvNode} (ht : (initBodies (madeHeader hdr) bdy {}).tree = some t) (hc : c ∈ t.childlist)
    (hct : c.tag ≠ knvPkgHdrTag) :
    c ∈ ((initNode knvPkgTag .string (some { str := bdy })).innerExpand false false).childlist := by
  unfold initBodies at ht
  split at ht
  · cases ht
  next n hn =>
  simp only at ht
  split at ht
  · cases ht
  next r hr =>
  cases hn
  cases ht
  obtain ⟨-, -, h, d, hh, hd, heq⟩ := insertChild_ok hr
  cases hh
  rw [evaluateSize_of_nonneg (n := madeHeader hdr) (shape_initNode ..).evaluated, or_self] at hd
  subst hd
  have heq' : insertChild (madeHeader hdr) true false {} (initNode knvPkgTag .string (some { str := bdy })) = _ := heq
  rw [heq', (touched_finish ..).childlist, childlist_linkChild, if_neg Bool.false_ne_true] at hc
  rcases List.mem_cons.mp hc with rfl | hc
  · exact absurd rfl hct
  · exact hc

theorem length_pick_le (v : PbVal) (type : PbType) : (v.pick type).str.length ≤ v.str.length := by
  cases type <;> simp [PbVal.pick]

/-- **A value of a body that looks like bodies** comes back as the bodies in it, which have shorter values. -/
theorem decode_tagged (hlt : hdr.length + bdy.length + 10 < 2 ^ 31) (htag : LooksTagged bdy) :
    ∀ c ∈ (decode (oidbFrame hdr bdy.length bdy)).bodies, (valueBytes (some c)).length < bdy.length := by
  have hdec : decode (oidbFrame hdr bdy.length bdy) = (initBodies (madeHeader hdr) bdy {}).initProtocol := by
    rw [decode, ofBuf, if_pos (show (oidbFrame hdr bdy.length bdy).headD 0 = stxIpv6Pb from rfl), initFromOidbPkg_frame hlt,
      if_pos htag]
  have hw := @whole_initBodies (madeHeader hdr) rfl bdy
  rw [hdec]
  intro c hc
  cases ht : (initBodies (madeHeader hdr) bdy {}).tree with
  | none =>
    have hnone : (initBodies (madeHeader hdr) bdy {}).initProtocol.tree = none := by
      unfold initProtocol
      rw [ht]
      rfl
    rw [bodies, hnone] at hc
    exact absurd hc List.not_mem_nil
  | some t =>
    obtain ⟨a, ha, h, hh, rfl, hht⟩ := (hw t ht).header
    have H : Headed t h (initBodies (madeHeader hdr) bdy {}) := ⟨ht, (hw t ht).rooted, hh, ha, hht⟩
    obtain ⟨t', H', hrep, -⟩ := H.initHeaderInfo
    rw [H.initProtocol, bodies, H'.tree] at hc
    obtain ⟨hc, hct⟩ := mem_withTag.mp hc
    have hmem : c ∈ t.childlist := by
      rcases hrep.old c hc with rfl | ⟨hc, -⟩
      · exact absurd (show knvPkgHdrTag = knvPkgBdyTag from H'.tag.symm.trans hct) (by decide)
      · exact hc
    have hne : c.tag ≠ knvPkgHdrTag := by
      rw [hct]
      decide
    obtain ⟨f, hf, k, b, rfl⟩ := mem_children_of_value (mem_initBodies ht hmem hne)
    have hzero : f.1.tag ≠ 0 := by
      rw [show f.1.tag = knvPkgBdyTag from hct]
      decide
    rw [ofField, valueBytes_initNode hzero]
    exact Nat.lt_of_le_of_lt (length_pick_le ..) (length_of_mem_pbScan hf)

variable {p : KnvProtocol} {v s : Bytes}

/-- There is one body in the tree, and no other value is that of the current body. -/
structure OneBody (v : Bytes) (p : KnvProtocol) : Prop where
  bodies : ∃ c, p.bodies = [c] ∧ valueBytes (some c) = v
  current : ∀ b, p.getBody = some b → valueBytes (some b) = v

/-- What a decoded packet is to say of a packet with a body of a value. -/
structure Relayed (v : Bytes) (p q : KnvProtocol) : Prop where
  valid : q.isValid = true
  cmd : q.cmd = p.cmd
  subcmd : q.subcmd = p.subcmd
  seq : q.seq = p.seq
  body : ∃ c, q.bodies = [c] ∧ valueBytes (some c) = v

/-- The value of the header has the numbers that the packet has. -/
def InStep (p : KnvProtocol) : Prop := ∃ hdr, p.headerValue = .ok hdr ∧ Says hdr p.cmd p.subcmd p.seq

/-- What `EncodeCompatOidb` of a packet with return code 0 encodes. -/
theorem encodeCompatOidb_ok (hret : p.retcode = 0) (hs : p.encodeCompatOidb = .ok s) : p.isValid = true ∧
    ∃ hdr, p.headerValue = .ok hdr ∧ hdr.length + (valueBytes p.bodyNode).length + 10 < 2 ^ 31 ∧
      s = oidbFrame hdr (valueBytes p.bodyNode).length (valueBytes p.bodyNode) := by
  unfold encodeCompatOidb at hs
  cases hv : p.isValid with
  | false =>
    rw [hv] at hs
    cases hs
  | true =>
    rw [hv, if_neg (by decide), if_neg (not_not_intro hret), encodeCompatOidbTree] at hs
    cases hhdr : p.headerValue with
    | error e =>
      rw [hhdr] at hs
      cases hs
    | ok hdr =>
      rw [hhdr] at hs
      simp only at hs
      by_cases hfit : 2 ^ 31 ≤ hdr.length + (valueBytes p.bodyNode).length + 10
      · rw [if_pos hfit] at hs
        cases hs
      · rw [if_neg hfit] at hs
        exact ⟨rfl, hdr, rfl, Nat.not_le.mp hfit, (Except.ok.inj hs).symm⟩

/-- What is encoded as the body. -/
theorem valueBytes_bodyNode (hv : p.isValid = true) :
    (p.getBody = none → valueBytes p.bodyNode = []) ∧ ∀ b, p.getBody = some b →
    valueBytes p.bodyNode = valueBytes (some b) := by
  rw [getBody, if_pos hv]
  cases hb : p.bodyNode with
  | none => exact ⟨fun _ => rfl, fun b hb' => nomatch hb'⟩
  | some b =>
    cases hbv : b.isValid with
    | true =>
      rw [Option.filter_some, if_pos hbv]
      exact ⟨nofun, fun c hc => by rw [Option.some.inj hc]⟩
    | false =>
      rw [Option.filter_some, if_neg (by simp [hbv])]
      refine ⟨fun _ => ?_, fun c hc => nomatch hc⟩
      rw [valueBytes, getValue, fold, if_pos (by simp [hbv])]
      rfl

/-- **When a packet comes back**: when it has a current body, the value of which does not look like bodies, and when its
header is in step. -/
theorem relayed_iff (hret : p.retcode = 0) (hone : OneBody v p) (hne : v ≠ []) (hs : p.encodeCompatOidb = .ok s) :
    Relayed v p (decode s) ↔ p.getBody ≠ none ∧ ¬LooksTagged v ∧ p.InStep := by
  obtain ⟨hv, hdr, hhdr, hlt, rfl⟩ := encodeCompatOidb_ok hret hs
  obtain ⟨hnone, hsome⟩ := valueBytes_bodyNode hv
  have hstep : p.InStep ↔ Says hdr p.cmd p.subcmd p.seq := by
    refine ⟨fun ⟨hdr', hhdr', h⟩ => ?_, fun h => ⟨hdr, hhdr, h⟩⟩
    rwa [Except.ok.inj (hhdr.symm.trans hhdr')]
  cases hb : p.getBody with
  | none =>
    -- no bytes are encoded, and they come back
    rw [hnone hb] at hlt ⊢
    obtain ⟨-, -, c, hc, -, hcv⟩ := decode_value hlt (by decide)
    refine iff_of_false (fun hr => ?_) fun h => h.1 rfl
    obtain ⟨c', hc', hv'⟩ := hr.body
    rw [hc] at hc'
    rw [← (List.cons.inj hc').1, hcv] at hv'
    exact hne hv'.symm
  | some b =>
    have hval := (hsome b hb).trans (hone.current b hb)
    rw [hval] at hlt ⊢
    by_cases htag : LooksTagged v
    · refine iff_of_false (fun hr => ?_) fun h => h.2.1 htag
      obtain ⟨c, hc, hcv⟩ := hr.body
      have hshort := decode_tagged hlt htag c (hc ▸ List.mem_singleton_self c)
      rw [hcv] at hshort
      exact Nat.lt_irrefl _ hshort
    · obtain ⟨hvalid, hsays, c, hc, -, hcv⟩ := decode_value hlt htag
      rw [hstep, hsays]
      exact ⟨fun h => ⟨Option.some_ne_none b, htag, h.cmd, h.subcmd, h.seq⟩,
        fun ⟨_, _, hcmd, hsub, hseq⟩ => ⟨hvalid, hcmd, hsub, hseq, c, hc, hcv⟩⟩

/-- What is to be found in a packet, as a computation. -/
theorem oneBody_of_run
    (h : ((match p.bodies with | [c] => valueBytes (some c) == v | _ => false) &&
      p.getBody.all fun b => valueBytes (some b) == v) = true) : OneBody v p := by
  obtain ⟨hbodies, hcurrent⟩ := Bool.and_eq_true_iff.mp h
  refine ⟨?_, fun b hb => ?_⟩
  · match hp : p.bodies with
    | [] => simp [hp] at hbodies
    | [c] => exact ⟨c, rfl, by simpa [hp] using hbodies⟩
    | _ :: _ :: _ => simp [hp] at hbodies
  · rw [hb] at hcurrent
    exact eq_of_beq hcurrent

theorem oneBody_numberPacket : OneBody [0x58, 5] numberPacket := oneBody_of_run (by decide +kernel)

theorem relayed_iff_number : ∃ s, numberPacket.encodeCompatOidb = .ok s ∧ (Relayed [0x58, 5] numberPacket (decode s) ↔
    numberPacket.getBody ≠ none ∧ ¬LooksTagged [0x58, 5] ∧ numberPacket.InStep) := by
  have hret : numberPacket.retcode = 0 := (holds_of_prepared prepared_numberPacket).2.1.retcode
  obtain ⟨s, hs⟩ := exists_of_toBool (r := numberPacket.encodeCompatOidb) (by decide +kernel)
  exact ⟨s, hs, relayed_iff hret oneBody_numberPacket (by decide) hs⟩

/-- A packet with a body that holds a string under the tag of bodies. -/
def nestedPacket : KnvProtocol :=
  ((create 1 2 3).addBody (madeBody (KnvProto.encodeAll [strField knvPkgBdyTag [65]])) true).1

/-- **The body comes back as the string in it.** -/
theorem not_relayed : ¬∀ (fs : List PbField) (p : KnvProtocol) (s : Bytes), fs ≠ [] → (∀ f ∈ fs, f.Ok) → p.retcode = 0 →
    OneBody (KnvProto.encodeAll fs) p → p.encodeCompatOidb = .ok s → Relayed (KnvProto.encodeAll fs) p (decode s) := by
  intro h
  have hret : nestedPacket.retcode = 0 := by decide +kernel
  have hone : OneBody (KnvProto.encodeAll [strField knvPkgBdyTag [65]]) nestedPacket := oneBody_of_run (by decide +kernel)
  have hval : valueBytes nestedPacket.bodyNode = KnvProto.encodeAll [strField knvPkgBdyTag [65]] := by decide +kernel
  obtain ⟨s, hs⟩ := exists_of_toBool (r := nestedPacket.encodeCompatOidb) (by decide +kernel)
  have hfields : ∀ f ∈ [strField knvPkgBdyTag [65]], f.Ok := by
    intro f hf
    rw [List.mem_singleton.mp hf]
    exact ⟨by decide, by decide⟩
  obtain ⟨c, hc, hcv⟩ := (h _ nestedPacket s (List.cons_ne_nil _ _) hfields hret hone hs).body
  obtain ⟨-, hdr, -, hlt, rfl⟩ := encodeCompatOidb_ok hret hs
  rw [hval] at hlt hc
  have hshort := decode_tagged hlt (by decide) c (hc ▸ List.mem_singleton_self c)
  rw [hcv] at hshort
  exact Nat.lt_irrefl _ hshort

/-! ### Headers that are in step -/

/-- The value of a node that has only been looked into is what it was made of. -/
theorem getValue_asRead (f : PbField) (sz a : ℕ) (htag : f.tag ≠ 0) :
    ((ofField (f, sz) false).at' a).asRead.getValue.2 = .ok (f.val.pick f.type) := by
  have hkeep : ∀ n : KnvNode, n.isValid = true → (n.isFolded || n.isClean) = true → n.getValue.2 = .ok n.val := by
    intro n hv hf
    rw [getValue, fold, if_neg (by simp [hv]), if_pos hf]
    rfl
  have hv : ((ofField (f, sz) false).at' a).isValid = true := isValid_of_tag rfl htag
  have hfold : ((ofField (f, sz) false).at' a).isFolded = true := isFolded_initNode f.tag f.type f.val sz false
  refine innerExpand_rule (P := fun n => n.getValue.2 = .ok (f.val.pick f.type)) (fun _ => ?_) fun n _ hn => ?_
  · exact hkeep _ hv (by rw [hfold, Bool.true_or])
  cases hn with
  | leaf _ => exact hkeep _ hv (by simp [isFolded])
  | cut _ _ _ _ _ _ _ => exact hkeep _ hv (by simp [isFolded])
  | message _ _ _ _ _ hbegin _ =>
    refine hkeep _ hv (Bool.or_eq_true_iff.mpr (.inr ?_))
    have hne : ((ofField (f, sz) false).at' a).val.str ≠ [] := by
      intro hnil
      rw [hnil] at hbegin
      exact absurd hbegin (by decide)
    rw [isClean, isBufferValid]
    simpa using hne

/-- What a header says is what its value says. -/
theorem metaInt_made {f : PbField} (htag : f.tag = knvPkgHdrTag) (sz a : ℕ) (u : UInt32) :
    metaInt ((ofField (f, sz) false).at' a).asRead u = metaInt (madeHeader (f.val.pick f.type).str) u := by
  rw [metaInt_asRead, metaInt_at']
  obtain ⟨tag, type, val⟩ := f
  obtain rfl : tag = knvPkgHdrTag := htag
  by_cases hstr : type = .string
  · subst hstr
    exact metaInt_relabel (madeHeader val.str) 0 _ _ u
  · -- a number has no metas
    have hpick : (val.pick type).str = [] := by simp [PbVal.pick, hstr]
    have hexp : (ofField (⟨knvPkgHdrTag, type, val⟩, sz) false).expanded = true := by
      simp [ofField, initNode, hstr]
    rw [hpick, metaInt_of_nil hexp rfl, metaInt_of_nil rfl rfl]

/-- **A packet that has been decoded is in step.** -/
theorem inStep_decode {buf : Bytes} (hv : (decode buf).isValid = true) : (decode buf).InStep := by
  obtain ⟨q, ⟨t, h, H, hmade⟩, heq⟩ := decode_unseen hv
  obtain ⟨t', H', -, heq'⟩ := H.initHeaderInfo
  obtain ⟨f, sz, a, rfl⟩ := hmade
  have hftag : f.tag = knvPkgHdrTag := H.tag
  rw [heq]
  refine ⟨(f.val.pick f.type).str, ?_, ?_⟩
  · rw [headerValue, H'.headerNode]
    simp only [getValue_asRead f sz a (by rw [hftag]; decide)]
    rfl
  · have hread := metaInt_made hftag sz a
    rw [heq']
    exact ⟨congrArg UInt64.toUInt32 (hread _).symm, congrArg UInt64.toUInt32 (hread _).symm, (hread _).symm⟩

/-- **A packet that has been prepared is in step**, if it is encoded. -/
theorem inStep_prepared {cmd subcmd seq : UInt32} {msg addr : Option Bytes} {bodies : List KnvNode}
    (h : Prepared cmd subcmd seq msg addr bodies p) (hs : p.encodeCompatOidb = .ok s) : p.InStep := by
  obtain ⟨⟨t, hdr, ht, hh, hhdr, hroot⟩, hset, -, haddr⟩ := holds_of_prepared h
  obtain ⟨hrooted, hmem⟩ := rooted_of_root hroot
  have H : Headed t hdr p := ⟨ht, hrooted, hmem, hh, hhdr.tag⟩
  obtain ⟨-, v, hval, hlt, -⟩ := encodeCompatOidb_ok hset.retcode hs
  have hms : hdr.metalist ≠ [] := by
    intro hnil
    have hmetas := hhdr.metas
    rw [hnil] at hmetas
    cases hmetas
  have hf : hdr.isFolded = false := isFolded_of_below hhdr.type hhdr.expanded (.inl hms)
  have hclean : hdr.isClean = false := by
    rw [isClean, isBufferValid, (hhdr.asm.written.here.inner hf).1]
    rfl
  -- the header is written, and it is written as its fields
  have hplain : v = hdr.plainVal := by
    rw [headerValue, H.headerNode] at hval
    simp only [getValue, fold, H.valid, hf, hclean, Bool.not_true, Bool.false_eq_true, if_false, Bool.or_self] at hval
    cases hser : hdr.evaluateSize.serialize (Memory.allocSize hdr.evaluateSize.evalSz.toNat) false with
    | error e =>
      rw [hser] at hval
      cases hval
    | ok out =>
      rw [hser] at hval
      simp only at hval
      split at hval
      · cases hval
      · rw [evaluateSize_of_nonneg hhdr.asm.shaped.here.evaluated] at hser
        exact (Except.ok.inj hval).symm.trans ((hhdr.asm.plain _ out).2 hser)
  have hread := settings_readHeader hhdr (by rw [← hplain]; omega) haddr 0 0 p
  have hsays : ∀ u, metaInt ((hdr.reread 0 0).innerExpand false false) u = metaInt (madeHeader v) u := by
    intro u
    have hmade := @metaInt_made hdr.toField hhdr.tag 0 0 u
    have hstr : (hdr.toField.val.pick hdr.toField.type).str = v := by
      simp [toField, fieldOf, PbField.norm, PbVal.norm, hhdr.type, hplain]
    rw [hstr] at hmade
    exact hmade
  refine ⟨v, hval, ?_, ?_, ?_⟩
  · rw [← hsays, hset.cmd]
    exact hread.cmd
  · rw [← hsays, hset.subcmd]
    exact hread.subcmd
  · rw [← hsays, hset.seq]
    exact hread.seq

end KnvProtocol

end KnvProto
