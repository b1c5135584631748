import KnvProto.Packet.Protocol
import KnvProto.Tree.Alike

/-!
# Packets are read back

A packet that is made with a command, a subcommand and a sequence number, and given
a return message, a response address and bodies, in any order, holds a tree whose
root has the header for its first child and the bodies after it (`Holds`). Every
step keeps that (`holds_of_prepared`), so that what is encoded is the plain encoding
of the tree, and what is decoded has the same header fields and the same bodies
(`ofBuf_encode`).
-/

namespace KnvProto

open PathEdit KnvNode

/-! ### Header fields -/

/-- A number in a field. -/
def intField (tag : UInt32) (v : UInt64) : PbField := ⟨tag, .varint, { i64 := v }⟩

/-- A string in a field. -/
def strField (tag : UInt32) (s : Bytes) : PbField := ⟨tag, .string, { str := s }⟩

/-- The metas of a header. -/
def headerMetas (cmd subcmd seq : UInt32) (msg : Option Bytes) : List PbField :=
  [intField knvPkgHdrCmdTag cmd.toUInt64, intField knvPkgHdrSubcmdTag subcmd.toUInt64,
    intField knvPkgHdrSeqTag seq.toUInt64] ++ (msg.map (strField knvPkgHdrErrTag)).toList

/-- The children of a header. -/
def headerChildren (addr : Option Bytes) : List PbField := (addr.map (strField knvPkgHdrRspAddr)).toList

namespace KnvNode

/-! ### Making a packet -/

/-- A node that can be given metas and children: it is put together, and it has been expanded. -/
structure Open (n : KnvNode) : Prop where
  asm : Assembly n
  type : n.type = .string
  expanded : n.expanded = true

theorem Open.valid {n : KnvNode} (h : Open n) : n.isValid = true :=
  bne_iff_ne.mpr (tag_ne_zero h.asm.written.here)

/-- A child is linked at the tail. -/
theorem insertChild_open {n c : KnvNode} (h : Open n) (hc : Assembly c) (htag : ChildTag c.tag) (pl : Place) :
    (insertChild c true true pl n).ret = .ok 0 ∧ Open (insertChild c true true pl n).node ∧
      Touched (n.linkChild c true) (insertChild c true true pl n).node := by
  have heq : insertChild c true true pl n = (n.linkChild c true).finish c.evalSz := by
    unfold insertChild innerInsertChild
    simp only [h.valid, h.type, innerExpand_of_expanded h.expanded]
    simp [evaluateSize_of_nonneg hc.shaped.here.evaluated]
  have hret : (insertChild c true true pl n).ret = .ok 0 := by
    rw [heq]
    rfl
  have ht : Touched (n.linkChild c true) (insertChild c true true pl n).node := heq ▸ touched_finish ..
  have hasm := assembly_insertChild h.asm hc htag (fun hexp => absurd (h.expanded.symm.trans hexp) Bool.noConfusion) hret
  exact ⟨hret, ⟨hasm, ht.type.trans h.type, ht.expanded.trans h.expanded⟩, ht⟩

/-- A meta with a new tag, which is not that of a key, is added. -/
theorem setMeta_open {n : KnvNode} (h : Open n) {tag : UInt32} (htag : MetaTag tag) (hone : tag ≠ 1)
    (hnone : n.metaAt tag = none) (type : PbType) (data : PbVal) (pl : Place) :
    (n.setMeta tag type (some data) pl).ret = .ok 0 ∧ Open (n.setMeta tag type (some data) pl).node ∧
      Touched (n.addMetaNode tag type (some data)) (n.setMeta tag type (some data) pl).node := by
  have hinner : n.setMeta tag type (some data) pl = n.setMetaInner tag type (some data) true pl :=
    setMeta_rule (P := fun o => o = _) (fun _ h1 => absurd h1 hone) fun _ => rfl
  have hshape := (keepsShape_setMetaInner h.asm.shaped tag type (some data) pl).1
  have heq : n.setMetaInner tag type (some data) true pl =
      (n.addMetaNode tag type (some data)).finish (metaSize tag type (some data)) := by
    refine setMetaInner_rule (P := fun o => o = _) (fun hbad => ?_) fun _ _ _ n' hn' => ?_
    · rcases hbad with hbad | hbad | hbad
      · exact absurd (h.valid.symm.trans hbad) Bool.noConfusion
      · exact absurd h.type hbad
      · exact absurd htag.2 (UInt32.not_le.mpr hbad)
    · rw [innerExpand_of_expanded h.expanded] at hn'
      subst hn'
      exact ⟨fun m hm => absurd (hnone.symm.trans hm) (Option.some_ne_none m).symm, fun _ => rfl⟩
  rw [hinner]
  rw [heq] at hshape ⊢
  have ht := touched_finish (n.addMetaNode tag type (some data)) (metaSize tag type (some data))
  obtain ⟨hun, hb⟩ := unfinished_innerExpand h.asm h.type
    (fun hexp => absurd (h.expanded.symm.trans hexp) Bool.noConfusion) false
  rw [innerExpand_of_expanded h.expanded] at hun hb
  obtain ⟨hun', hb', hlist⟩ := unfinished_addMetaNode hun hb htag hone type (some data)
  have hne : (n.addMetaNode tag type (some data)).metalist ≠ [] := by
    rw [hlist]
    exact List.append_ne_nil_of_right_ne_nil _ (List.cons_ne_nil _ _)
  exact ⟨rfl, ⟨⟨written_of_finish hun' hb' (.inl hne) (Int.ne_of_gt (metaSize_pos ..)), hshape,
    fun _ => ht.noKey.trans hun'.noKey⟩, ht.type.trans h.type, ht.expanded.trans h.expanded⟩, ht⟩

theorem MetasFill.of_same {n n' : KnvNode} (h : MetasFill n) (hms : n'.metalist = n.metalist) (hm : n'.metas = n.metas) :
    MetasFill n' := by
  refine ⟨?_, ?_⟩
  · rw [hms, hm]
    exact h.leads
  · rw [hms, hm]
    exact h.all

theorem MetasFill.addMetaNode {n : KnvNode} (h : MetasFill n) {tag : UInt32} (hone : tag ≠ 1) (type : PbType)
    (data : Option PbVal) : MetasFill (n.addMetaNode tag type data) := by
  have hlist : (n.addMetaNode tag type data).metalist =
      n.metalist ++ [(initNode tag type data true 0 true).at' n.slots] := if_neg hone
  have hmetas : ∀ t, (n.addMetaNode tag type data).metas t =
      if t = tag then some n.slots else if n.metalist.isEmpty then none else n.metas t := by
    intro t
    simp only [KnvNode.addMetaNode]
    split
    · rfl
    · split <;> rfl
  refine ⟨fun _ t a hta => ?_, fun m hm => ?_⟩
  · rw [hlist]
    rw [hmetas] at hta
    split at hta
    · next ht =>
      cases hta
      exact ⟨_, List.mem_append_right _ (List.mem_singleton_self _), rfl, ht.symm⟩
    · split at hta
      · cases hta
      · next hne =>
        obtain ⟨m, hm, hself, htag⟩ := h.leads (fun hnil => hne (by rw [hnil]; rfl)) t a hta
        exact ⟨m, List.mem_append_left _ hm, hself, htag⟩
  · rw [hlist] at hm
    rw [hmetas]
    split
    · exact Option.some_ne_none _
    · next ht =>
      rcases List.mem_append.mp hm with hm | hm
      · rw [if_neg (by rw [List.isEmpty_iff]; exact List.ne_nil_of_mem hm)]
        exact h.all m hm
      · exact absurd (by rw [List.mem_singleton.mp hm]; rfl) ht

/-! ### Headers -/

/-- A header with these metas and children. -/
structure Header (metas children : List PbField) (n : KnvNode) : Prop extends Open n where
  tag : n.tag = knvPkgHdrTag
  fill : MetasFill n
  metas : n.metalist.map toField = metas
  children : n.childlist.map toField = children

variable {ms cs : List PbField} {n : KnvNode}

/-- `SetMeta`, with a new tag. -/
theorem Header.setMeta (h : Header ms cs n) {f : PbField} (hn : f.norm = f) (htag : MetaTag f.tag) (hone : f.tag ≠ 1)
    (hnew : ∀ g ∈ ms, g.tag ≠ f.tag) (pl : Place) :
    (n.setMeta f.tag f.type (some f.val) pl).ret = .ok 0 ∧
    Header (ms ++ [f]) cs (n.setMeta f.tag f.type (some f.val) pl).node ∧
      (n.setMeta f.tag f.type (some f.val) pl).node.self = n.self := by
  have hnone : n.metaAt f.tag = none := metaAt_of_none h.fill fun x hx =>
    hnew x.toField (h.metas ▸ List.mem_map.mpr ⟨x, hx, rfl⟩)
  obtain ⟨hret, hopen, ht⟩ := setMeta_open h.toOpen htag hone hnone f.type f.val pl
  have hlist : (n.addMetaNode f.tag f.type (some f.val)).metalist = n.metalist ++ [(ofField (f, 0) true).at' n.slots] :=
    if_neg hone
  refine ⟨hret, ⟨hopen, ht.tag.trans h.tag,
    (h.fill.addMetaNode hone f.type (some f.val)).of_same ht.metalist ht.metas, ?_, ?_⟩,
    ht.self⟩
  · rw [ht.metalist, hlist, List.map_append, h.metas, List.map_singleton, toField_ofField hn]
  · rw [ht.childlist]
    exact h.children

/-- `InsertStrLeaf`. -/
theorem Header.insertStrLeaf (h : Header ms cs n) {tag : UInt32} (htag : ChildTag tag) (s : Bytes) (pl : Place) :
    (n.insertStrLeaf tag s pl).ret = .ok 0 ∧ Header ms (cs ++ [strField tag s]) (n.insertStrLeaf tag s pl).node ∧
      (n.insertStrLeaf tag s pl).node.self = n.self := by
  have hzero : tag ≠ 0 := fun h0 => absurd htag.1 (by rw [h0]; decide)
  have heq : n.insertStrLeaf tag s pl = insertChild (ofField (strField tag s, 0) false) true true pl n := by
    rw [KnvNode.insertStrLeaf, KnvNode.new, if_neg hzero]
    rfl
  have hc : Assembly (ofField (strField tag s, 0) false) := assembly_initNode htag.ok .string (some { str := s }) 0
  obtain ⟨hret, hopen, ht⟩ := insertChild_open h.toOpen hc htag pl
  rw [heq]
  refine ⟨hret, ⟨hopen, ht.tag.trans h.tag, h.fill.of_same ht.metalist ht.metas, ?_, ?_⟩, ht.self⟩
  · rw [ht.metalist]
    exact h.metas
  · have hlist : (n.linkChild (ofField (strField tag s, 0) false) true).childlist =
        n.childlist ++ [(ofField (strField tag s, 0) false).at' n.slots] := rfl
    rw [ht.childlist, hlist, List.map_append, h.children, List.map_singleton, toField_ofField rfl]

/-- The tree of a packet: the header, and the bodies. -/
structure Root (hdr : KnvNode) (bodies : List KnvNode) (t : KnvNode) : Prop extends Open t where
  tag : t.tag = knvPkgTag
  childlist : ∃ bs, t.childlist = hdr :: bs ∧ List.Forall₂ (fun b c => ∃ a, c = KnvNode.at' b a) bodies bs

end KnvNode

namespace KnvProtocol

/-! ### Packets -/

/-- A packet with a header and bodies. -/
def Holds (ms cs : List PbField) (bodies : List KnvNode) (p : KnvProtocol) : Prop :=
  ∃ t hdr, p.tree = some t ∧ p.header = some hdr.self ∧ Header ms cs hdr ∧ Root hdr bodies t

variable {ms cs : List PbField} {bodies : List KnvNode} {p : KnvProtocol}

theorem Holds.isValid (h : Holds ms cs bodies p) : p.isValid = true := by
  obtain ⟨t, hdr, ht, -, -, hroot⟩ := h
  rw [KnvProtocol.isValid, ht]
  exact beq_iff_eq.mpr hroot.tag

/-- A function that is run on the first child. -/
theorem onChild_first {t c : KnvNode} {bs : List KnvNode} (hbs : t.childlist = c :: bs) (f : Place → KnvNode → Out) {o : Out}
    (ho : f (t.place (.ofChild 0)) c = o) : t.onChild c.self f {} =
      some ⟨((t.setSlot (.ofChild 0) o.node).handleAll o.node.self o.msgs).1,
        ((t.setSlot (.ofChild 0) o.node).handleAll o.node.self o.msgs).2, o.ret⟩ := by
  refine onChild_at ?_ ?_ ho
  · rw [hbs]
    rfl
  · rw [hbs, List.findIdx_cons, decide_eq_true rfl]
    rfl

/-- What a function does to the header, it does to the packet. -/
theorem Holds.onHeader (h : Holds ms cs bodies p) {ms' cs' : List PbField} {f : Place → KnvNode → Out}
    (hf : ∀ pl hdr, Header ms cs hdr → (f pl hdr).ret = .ok 0 ∧ Header ms' cs' (f pl hdr).node ∧
    (f pl hdr).node.self = hdr.self) :
    ∃ t', Holds ms' cs' bodies { p with tree := some t' } ∧ ∀ k, p.onHeader f k = k { p with tree := some t' } (.ok 0) := by
  obtain ⟨t, hdr, ht, hh, hhdr, hroot⟩ := h
  obtain ⟨bs, hbs, hbodies⟩ := hroot.childlist
  obtain ⟨hret, hhdr', hself⟩ := hf (t.place (.ofChild 0)) hdr hhdr
  generalize ho : f (t.place (.ofChild 0)) hdr = o at hret hhdr' hself
  have hget : t.childlist[0]? = some hdr := by
    rw [hbs]
    rfl
  have htouch := touched_handleAll o.node.self o.msgs (t.setSlot (.ofChild 0) o.node)
  have hasm := hroot.asm.hear o.msgs hget hhdr'.asm hself (hhdr'.tag.trans hhdr.tag.symm)
  refine ⟨_, ⟨_, o.node, rfl, ?_, hhdr', ⟨hasm, htouch.type.trans hroot.type, htouch.expanded.trans hroot.expanded⟩,
    htouch.tag.trans hroot.tag, bs, ?_, hbodies⟩, ?_⟩
  · rw [hself]
    exact hh
  · rw [htouch.childlist, setSlot_ofChild, hbs]
    rfl
  · intro k
    rw [KnvProtocol.onHeader, ht, hh, Option.bind_some, Option.bind_some, onChild_first hbs f ho, hret]

/-- `SetHeaderIntField`, of a field that is not there yet. -/
theorem Holds.setHeaderIntField (h : Holds ms cs bodies p) {tag : UInt32} (htag : MetaTag tag) (hone : tag ≠ 1)
    (hnew : ∀ g ∈ ms, g.tag ≠ tag) (v : UInt64) : ∃ t', Holds (ms ++ [intField tag v]) cs bodies { p with tree := some t' } ∧
      p.setHeaderIntField tag v =
        (if tag = knvPkgHdrCmdTag then { p with tree := some t', cmd := v.toUInt32 }
          else if tag = knvPkgHdrSubcmdTag then { p with tree := some t', subcmd := v.toUInt32 }
          else if tag = knvPkgHdrSeqTag then { p with tree := some t', seq := v }
          else if tag = knvPkgHdrRetTag then { p with tree := some t', retcode := v.toUInt32 }
          else { p with tree := some t' }, 0) := by
  have hset : ∀ pl hdr, Header ms cs hdr → (setField tag .varint { i64 := v } pl hdr).ret = .ok 0 ∧
      Header (ms ++ [intField tag v]) cs (setField tag .varint { i64 := v } pl hdr).node ∧
      (setField tag .varint { i64 := v } pl hdr).node.self = hdr.self := by
    intro pl hdr hhdr
    rw [setField, if_pos htag.2]
    exact hhdr.setMeta (f := intField tag v) rfl htag hone hnew pl
  obtain ⟨t', hholds, hon⟩ := h.onHeader hset
  refine ⟨t', hholds, ?_⟩
  rw [KnvProtocol.setHeaderIntField, h.isValid]
  simp only [Bool.not_true, Bool.false_eq_true, if_false]
  rw [hon]

/-- `SetRetErrorMsg`, of a message that is not empty, for the first time. -/
theorem Holds.setRetErrorMsg (h : Holds ms cs bodies p) (hnew : ∀ g ∈ ms, g.tag ≠ knvPkgHdrErrTag) {msg : Bytes}
    (hmsg : msg ≠ []) : ∃ t', Holds (ms ++ [strField knvPkgHdrErrTag msg]) cs bodies { p with tree := some t' } ∧
      p.setRetErrorMsg msg = ({ p with tree := some t', retmsg := msg }, 0) := by
  have hset : ∀ pl hdr, Header ms cs hdr → (setField knvPkgHdrErrTag .string { str := msg } pl hdr).ret = .ok 0 ∧
      Header (ms ++ [strField knvPkgHdrErrTag msg]) cs (setField knvPkgHdrErrTag .string { str := msg } pl hdr).node ∧
      (setField knvPkgHdrErrTag .string { str := msg } pl hdr).node.self = hdr.self := by
    intro pl hdr hhdr
    have htag : MetaTag knvPkgHdrErrTag := ⟨by decide, by decide⟩
    have hone : knvPkgHdrErrTag ≠ 1 := by decide
    exact hhdr.setMeta (f := strField knvPkgHdrErrTag msg) rfl htag hone hnew pl
  obtain ⟨t', hholds, hon⟩ := h.onHeader hset
  refine ⟨t', hholds, ?_⟩
  rw [KnvProtocol.setRetErrorMsg, setHeaderStringField, h.isValid]
  simp only [Bool.not_true, Bool.false_eq_true, if_false]
  rw [if_pos hmsg, hon]
  rfl

theorem putRspAddr_header {n : KnvNode} (h : Header ms [] n) (addr : Bytes) (pl : Place) :
    (putRspAddr addr pl n).ret = .ok 0 ∧ Header ms [strField knvPkgHdrRspAddr addr] (putRspAddr addr pl n).node ∧
      (putRspAddr addr pl n).node.self = n.self := by
  obtain ⟨hret, hhdr, hself⟩ := h.insertStrLeaf (show ChildTag knvPkgHdrRspAddr from ⟨by decide, by decide⟩) addr pl
  have hnum : n.childNum ≤ 0 := by
    rw [childNum, if_pos h.expanded, List.map_eq_nil_iff.mp h.children]
    exact Int.le_of_eq rfl
  have hfind : n.findChildByTag knvPkgHdrRspAddr pl = (n, none) := by
    unfold findChildByTag
    rw [if_neg (by simp [h.valid]), innerExpand_of_expanded h.expanded]
    simp only [if_pos hnum]
  rw [putRspAddr, hfind]
  refine ⟨?_, hhdr, hself⟩
  simp only [hret]
  rfl

/-- `SetRspAddr`, for the first time. -/
theorem Holds.setRspAddr (h : Holds ms [] bodies p) (addr : Bytes) :
    ∃ t', Holds ms [strField knvPkgHdrRspAddr addr] bodies { p with tree := some t' } ∧
      p.setRspAddr addr = ({ p with tree := some t', rspaddr := addr }, 0) := by
  have h' : Holds ms [] bodies { p with rspaddr := addr } := h
  obtain ⟨t', hholds, hon⟩ := h'.onHeader (f := putRspAddr addr) fun pl _ hhdr => putRspAddr_header hhdr addr pl
  refine ⟨t', hholds, ?_⟩
  rw [KnvProtocol.setRspAddr, h.isValid]
  simp only [Bool.not_true, Bool.false_eq_true, if_false]
  rw [hon]

/-- `AddBody(b, true)`. -/
theorem Holds.addBody (h : Holds ms cs bodies p) {b : KnvNode} (hb : Assembly b) (htag : b.tag = knvPkgBdyTag) :
    ∃ t' ptr, Holds ms cs (bodies ++ [b]) { p with tree := some t' } ∧
      p.addBody b true = ({ p with tree := some t', body := ptr }, 0) := by
  obtain ⟨t, hdr, ht, hh, hhdr, hroot⟩ := h
  obtain ⟨bs, hbs, hbodies⟩ := hroot.childlist
  have hctag : ChildTag b.tag := htag ▸ ⟨by decide, by decide⟩
  obtain ⟨hret, hopen, htouch⟩ := insertChild_open hroot.toOpen hb hctag {}
  have hlist : (t.linkChild b true).childlist = t.childlist ++ [b.at' t.slots] := rfl
  refine ⟨(insertChild b true true {} t).node,
    ((insertChild b true true {} t).node.childlist.getLast?).map fun c => BodyPtr.child c.self,
    ⟨_, hdr, rfl, hh, hhdr, ⟨hopen, htouch.tag.trans hroot.tag, bs ++ [b.at' t.slots], ?_,
      List.rel_append hbodies (.cons ⟨_, rfl⟩ .nil)⟩⟩, ?_⟩
  · rw [htouch.childlist, hlist, hbs]
    rfl
  · unfold KnvProtocol.addBody
    rw [ht]
    simp only [hroot.tag, htag, hret]
    rfl

/-- A new packet has a header without fields. -/
theorem holds_newPacket : Holds [] [] [] newPacket := by
  have hroot : Open (initNode knvPkgTag .string none) := ⟨assembly_initNode (by decide) .., rfl, rfl⟩
  have hhdr : Assembly (initNode knvPkgHdrTag .string none) := assembly_initNode (by decide) ..
  obtain ⟨hret, hopen, htouch⟩ := insertChild_open hroot hhdr ⟨by decide, by decide⟩ {}
  have hlist : ((initNode knvPkgTag .string none).linkChild (initNode knvPkgHdrTag .string none) true).childlist =
      [(initNode knvPkgHdrTag .string none).at' 0] := rfl
  have hchild := htouch.childlist.trans hlist
  have heq : newPacket =
      { tree := some (insertChild (initNode knvPkgHdrTag .string none) true true {} (initNode knvPkgTag .string none)).node
        header := some 0 } := by
    have hnew : newTree knvPkgTag = .ok (initNode knvPkgTag .string none) := rfl
    have hsub : (initNode knvPkgTag .string none).insertSubNode knvPkgHdrTag none {} =
        insertChild (initNode knvPkgHdrTag .string none) true true {} (initNode knvPkgTag .string none) := rfl
    rw [newPacket, hnew]
    simp only [hsub, hret, hchild]
    rfl
  refine ⟨_, (initNode knvPkgHdrTag .string none).at' 0, by rw [heq], by rw [heq]; rfl,
    ⟨⟨hhdr.at', rfl, rfl⟩, rfl, ⟨fun hne => absurd rfl hne, fun m hm => absurd hm List.not_mem_nil⟩, rfl, rfl⟩,
    ⟨hopen, htouch.tag, [], hchild, .nil⟩⟩

/-- What is kept of the header of a packet with these settings. -/
structure Settings (cmd subcmd seq : UInt32) (msg addr : Option Bytes) (p : KnvProtocol) : Prop where
  cmd : p.cmd = cmd
  subcmd : p.subcmd = subcmd
  seq : p.seq = seq.toUInt64
  retcode : p.retcode = 0
  retmsg : p.retmsg = msg.getD []
  rspaddr : p.rspaddr = addr.getD []

/-- `KnvProtocol(cmd, subcmd, seq)`. -/
theorem holds_create (cmd subcmd seq : UInt32) : Holds (headerMetas cmd subcmd seq none) [] [] (create cmd subcmd seq) ∧
    Settings cmd subcmd seq none none (create cmd subcmd seq) := by
  have hnew : newPacket.header.isNone = false := by
    obtain ⟨t, hdr, -, hh, -⟩ := holds_newPacket
    rw [hh]
    rfl
  obtain ⟨t₁, h₁, heq₁⟩ := holds_newPacket.setHeaderIntField (show MetaTag knvPkgHdrCmdTag from ⟨by decide, by decide⟩)
    (by decide) (fun g hg => absurd hg List.not_mem_nil) cmd.toUInt64
  rw [if_pos rfl] at heq₁
  have h₁' : Holds ([] ++ [intField knvPkgHdrCmdTag cmd.toUInt64]) [] []
    { newPacket with tree := some t₁, cmd := cmd.toUInt64.toUInt32 } := h₁
  obtain ⟨t₂, h₂, heq₂⟩ := h₁'.setHeaderIntField (show MetaTag knvPkgHdrSubcmdTag from ⟨by decide, by decide⟩)
    (by decide) (by simp [intField]; decide) subcmd.toUInt64
  rw [if_neg (by decide), if_pos rfl] at heq₂
  have h₂' : Holds ([] ++ [intField knvPkgHdrCmdTag cmd.toUInt64] ++ [intField knvPkgHdrSubcmdTag subcmd.toUInt64]) [] []
    { newPacket with tree := some t₂, cmd := cmd.toUInt64.toUInt32, subcmd := subcmd.toUInt64.toUInt32 } := h₂
  obtain ⟨t₃, h₃, heq₃⟩ := h₂'.setHeaderIntField (show MetaTag knvPkgHdrSeqTag from ⟨by decide, by decide⟩)
    (by decide) (by simp [intField]; decide) seq.toUInt64
  rw [if_neg (by decide), if_neg (by decide), if_pos rfl] at heq₃
  have heq : create cmd subcmd seq =
      { newPacket with tree := some t₃, cmd := cmd, subcmd := subcmd, seq := seq.toUInt64 } := by
    rw [create, hnew, if_neg Bool.false_ne_true, setCommand, heq₁, orGiveUp, if_pos rfl]
    simp only
    rw [setSubCommand, heq₂, orGiveUp, if_pos rfl]
    simp only
    rw [setSequence, heq₃, orGiveUp, if_pos rfl]
  rw [heq]
  exact ⟨h₃, rfl, rfl, rfl, rfl, rfl, rfl⟩

/-- The packets that are made with a command, a subcommand and a sequence number, and given, in any order, at most one
return message, at most one response address, and bodies. -/
inductive Prepared (cmd subcmd seq : UInt32) : Option Bytes → Option Bytes → List KnvNode → KnvProtocol → Prop
  | create : Prepared cmd subcmd seq none none [] (create cmd subcmd seq)
  | setRetErrorMsg {addr : Option Bytes} {bodies : List KnvNode} {p : KnvProtocol} {msg : Bytes} :
      Prepared cmd subcmd seq none addr bodies p → msg ≠ [] →
      Prepared cmd subcmd seq (some msg) addr bodies (p.setRetErrorMsg msg).1
  | setRspAddr {msg : Option Bytes} {bodies : List KnvNode} {p : KnvProtocol} {addr : Bytes} :
      Prepared cmd subcmd seq msg none bodies p → addr.length = 16 ∨ addr.length = 28 →
      Prepared cmd subcmd seq msg (some addr) bodies (p.setRspAddr addr).1
  | addBody {msg addr : Option Bytes} {bodies : List KnvNode} {p : KnvProtocol} {b : KnvNode} :
      Prepared cmd subcmd seq msg addr bodies p → Assembled b → b.tag = knvPkgBdyTag →
      Prepared cmd subcmd seq msg addr (bodies ++ [b]) (p.addBody b true).1

/-- In every state of every preparation, the packet holds what was given to it. -/
theorem holds_of_prepared {cmd subcmd seq : UInt32} {msg addr : Option Bytes} {bodies : List KnvNode} {p : KnvProtocol}
    (h : Prepared cmd subcmd seq msg addr bodies p) :
    Holds (headerMetas cmd subcmd seq msg) (headerChildren addr) bodies p ∧ Settings cmd subcmd seq msg addr p ∧
      (∀ b ∈ bodies, Assembly b ∧ b.tag = knvPkgBdyTag) ∧ ∀ a, addr = some a → a.length = 16 ∨ a.length = 28 := by
  induction h with
  | create =>
    obtain ⟨hh, hs⟩ := holds_create cmd subcmd seq
    exact ⟨hh, hs, fun b hb => absurd hb List.not_mem_nil, fun a ha => nomatch ha⟩
  | @setRetErrorMsg addr bodies p msg _ hmsg ih =>
    obtain ⟨hh, hs, hb, ha⟩ := ih
    obtain ⟨t', hh', heq⟩ := hh.setRetErrorMsg (by simp [headerMetas, intField]; decide) hmsg
    rw [heq]
    exact ⟨hh', ⟨hs.cmd, hs.subcmd, hs.seq, hs.retcode, rfl, hs.rspaddr⟩, hb, ha⟩
  | @setRspAddr msg bodies p addr _ hlen ih =>
    obtain ⟨hh, hs, hb, -⟩ := ih
    obtain ⟨t', hh', heq⟩ := hh.setRspAddr addr
    rw [heq]
    refine ⟨hh', ⟨hs.cmd, hs.subcmd, hs.seq, hs.retcode, hs.retmsg, rfl⟩, hb, ?_⟩
    rintro _ ⟨⟩
    exact hlen
  | @addBody msg addr bodies p b _ hb htag ih =>
    obtain ⟨hh, hs, hbs, ha⟩ := ih
    have hasm := (assembly_of_assembled hb).1
    obtain ⟨t', ptr, hh', heq⟩ := hh.addBody hasm htag
    rw [heq]
    refine ⟨hh', ⟨hs.cmd, hs.subcmd, hs.seq, hs.retcode, hs.retmsg, hs.rspaddr⟩, fun c hc => ?_, ha⟩
    rcases List.mem_append.mp hc with hc | hc
    · exact hbs c hc
    · rw [List.mem_singleton.mp hc]
      exact ⟨hasm, htag⟩

/-! ### What is read of a header -/

section

variable {n : KnvNode} {fs : List PbField} {k : Bool} {a : ℕ} {tag : UInt32}

theorem getMeta_of_readable (h : Readable n) (htag : tag ≤ ucMaxMetaNum) : (n.getMeta {} tag).2 = n.metaAt tag := by
  rw [getMeta, if_neg (by simp [h.valid, htag])]
  simp only
  rw [innerExpand_of_expanded h.expanded]

theorem metaInt_parsed (h : Readable n) (hms : n.metalist = parsed k a (fs.map sized)) (hnd : (fs.map (·.tag)).Nodup)
    (htag : tag ≤ ucMaxMetaNum) {v : UInt64} (hf : intField tag v ∈ fs) : metaInt n tag = v := by
  obtain ⟨m, hm, htype, hval⟩ := metaAt_parsed h hms hnd hf rfl
  rw [metaInt, getMeta_of_readable h htag, show n.metaAt tag = some m from hm]
  simp only [htype, hval]
  rfl

theorem metaInt_parsed_none (h : Readable n) (hms : n.metalist = parsed k a (fs.map sized)) (htag : tag ≤ ucMaxMetaNum)
    (hf : ∀ f ∈ fs, f.tag ≠ tag) : metaInt n tag = 0 := by
  rw [metaInt, getMeta_of_readable h htag, metaAt_parsed_none h hms hf]

theorem metaStr_parsed (h : Readable n) (hms : n.metalist = parsed k a (fs.map sized)) (hnd : (fs.map (·.tag)).Nodup)
    (htag : tag ≤ ucMaxMetaNum) {s : Bytes} (hf : strField tag s ∈ fs) : metaStr n tag = s := by
  obtain ⟨m, hm, htype, hval⟩ := metaAt_parsed h hms hnd hf rfl
  rw [metaStr, getMeta_of_readable h htag, show n.metaAt tag = some m from hm]
  simp only [htype, hval]
  rfl

theorem metaStr_parsed_none (h : Readable n) (hms : n.metalist = parsed k a (fs.map sized)) (htag : tag ≤ ucMaxMetaNum)
    (hf : ∀ f ∈ fs, f.tag ≠ tag) : metaStr n tag = [] := by
  rw [metaStr, getMeta_of_readable h htag, metaAt_parsed_none h hms hf]

theorem childAddr_parsed (h : Readable n) (hcs : n.childlist = parsed k a (fs.map sized)) (hnd : (fs.map (·.tag)).Nodup)
    {s : Bytes} (hf : strField knvPkgHdrRspAddr s ∈ fs) (hlen : s.length = 16 ∨ s.length = 28) : childAddr n = s := by
  obtain ⟨c, hc, hfind, htype, hval⟩ := findChildByTag_parsed h hcs hnd hf rfl {}
  have hby : childByTag n knvPkgHdrRspAddr = some c := by
    rw [childByTag, show n.findChildByTag knvPkgHdrRspAddr {} = (n, some c.self) from hfind]
    exact find?_self h.shape.nodup_children hc
  have hstr : c.val.str = s := congrArg PbVal.str hval
  rw [childAddr, hby]
  simp only
  rw [if_pos ⟨htype, by rwa [hstr]⟩, hstr]

theorem childAddr_parsed_none (h : Readable n) (hcs : n.childlist = parsed k a (fs.map sized))
    (hf : ∀ f ∈ fs, f.tag ≠ knvPkgHdrRspAddr) : childAddr n = [] := by
  rw [childAddr, childByTag, findChildByTag_parsed_none h hcs hf]

end

/-- The fields of a header that are written. -/
theorem plainFields_header {hdr : KnvNode} (h : Header ms cs hdr) (hne : ∀ f ∈ ms, f.tag ≠ 1) (hf : hdr.isFolded = false) :
    hdr.plainFields = ms ++ cs := by
  have hkey : hdr.key = {} := by
    rcases h.asm.written.here.innerKey hf with ⟨hkey, -⟩ | ⟨-, -, m, l, hm, h1⟩
    · exact hkey
    · exact absurd h1 (hne m.toField (h.metas ▸ hm ▸ List.mem_cons_self ..))
  have hk : hdr.hasKey = false := by simp [hasKey, hkey]
  have hafter : afterKey false hdr.metalist = hdr.metalist := by cases hdr.metalist <;> rfl
  rw [plainFields, hk, hafter, h.metas, h.children]
  rfl

/-- **What is read of a header is what was set.** -/
theorem settings_readHeader {cmd subcmd seq : UInt32} {msg addr : Option Bytes} {hdr : KnvNode}
    (h : Header (headerMetas cmd subcmd seq msg) (headerChildren addr) hdr) (hlen : hdr.plainVal.length < 2 ^ 64)
    (haddr : ∀ s, addr = some s → s.length = 16 ∨ s.length = 28) (sz a : ℕ) (q : KnvProtocol) :
    Settings cmd subcmd seq msg addr (readHeader ((hdr.reread sz a).innerExpand false false) q) := by
  have hne : hdr.metalist ≠ [] := by
    intro hnil
    have hms := h.metas
    rw [hnil] at hms
    cases hms
  have hf : hdr.isFolded = false := isFolded_of_below h.type h.expanded (.inl hne)
  have htag : hdr.tag ≠ 1 := by
    rw [h.tag]
    decide
  obtain ⟨ms, hfields, hread, hms, hcs⟩ := innerExpand_reread h.asm.written.here hf hlen htag sz a false
  generalize (hdr.reread sz a).innerExpand false false = n at hread hms hcs
  rw [plainFields_header h (by cases msg <;> simp [headerMetas, intField, strField] <;> decide) hf, h.children] at hfields
  rw [← List.append_cancel_right hfields] at hms
  have hcs' : n.childlist = parsed false ms.length ((headerChildren addr).map sized) := by
    rw [hcs, ← h.children, List.map_map]
    rfl
  have hnd : ((headerMetas cmd subcmd seq msg).map (·.tag)).Nodup := by
    cases msg <;> simp [headerMetas, intField, strField] <;> decide
  have hcmd : metaInt n knvPkgHdrCmdTag = cmd.toUInt64 := metaInt_parsed hread hms hnd (by decide) (by simp [headerMetas])
  have hsub : metaInt n knvPkgHdrSubcmdTag = subcmd.toUInt64 :=
    metaInt_parsed hread hms hnd (by decide) (by simp [headerMetas])
  have hseq : metaInt n knvPkgHdrSeqTag = seq.toUInt64 := metaInt_parsed hread hms hnd (by decide) (by simp [headerMetas])
  have hret : metaInt n knvPkgHdrRetTag = 0 :=
    metaInt_parsed_none hread hms (by decide) (by cases msg <;> simp [headerMetas, intField, strField] <;> decide)
  have hmsg : metaStr n knvPkgHdrErrTag = msg.getD [] := by
    cases msg with
    | none => exact metaStr_parsed_none hread hms (by decide) (by simp [headerMetas, intField]; decide)
    | some m => exact metaStr_parsed hread hms hnd (by decide) (by simp [headerMetas])
  have hadr : childAddr n = addr.getD [] := by
    cases addr with
    | none => exact childAddr_parsed_none hread hcs' (fun f hf => absurd hf List.not_mem_nil)
    | some s => exact childAddr_parsed hread hcs' (List.nodup_singleton _) (List.mem_singleton_self _) (haddr s rfl)
  refine ⟨?_, ?_, hseq, ?_, hmsg, hadr⟩
  · exact (congrArg UInt64.toUInt32 hcmd).trans (UInt32.toUInt32_toUInt64 cmd)
  · exact (congrArg UInt64.toUInt32 hsub).trans (UInt32.toUInt32_toUInt64 subcmd)
  · exact congrArg UInt64.toUInt32 hret

/-! ### What is read of the bodies -/

/-- The bodies that `GetNextRequest` gives, called until it gives none. -/
inductive Follows : KnvProtocol → List KnvNode → Prop
  | nil {p : KnvProtocol} : p.getNextRequest.2 = none → Follows p []
  | cons {p : KnvProtocol} {b : KnvNode} {bs : List KnvNode} : p.getNextRequest.2 = some b →
      Follows p.getNextRequest.1 bs → Follows p (b :: bs)

/-- The bodies that `GetFirstRequest` and then `GetNextRequest` give, called until there is none. -/
def Requests (p : KnvProtocol) : List KnvNode → Prop
  | [] => p.getFirstRequest.2 = none
  | b :: bs => p.getFirstRequest.2 = some b ∧ Follows p.getFirstRequest.1 bs

theorem siblingsOf_append {t : KnvNode} {pre bs : List KnvNode} {b : KnvNode} (hnd : t.childAddrs.Nodup)
    (hcs : t.childlist = pre ++ b :: bs) : siblingsOf t (.child b.self) = bs := by
  have hpre : ∀ x ∈ pre, decide (x.self ≠ b.self) = true := by
    intro x hx
    rw [childAddrs, hcs, List.map_append, List.map_cons] at hnd
    exact decide_eq_true fun he => (List.nodup_append.mp hnd).2.2 _ (List.mem_map.mpr ⟨x, hx, rfl⟩) _
      (List.mem_cons_self ..) he
  rw [siblingsOf, hcs, List.dropWhile_append_of_pos hpre, List.dropWhile_cons_of_neg (by simp)]
  rfl

/-- From one body on, the bodies that follow it are given. -/
theorem follows_bodies {t : KnvNode} (hnd : t.childAddrs.Nodup) : ∀ {bs : List KnvNode} (pre : List KnvNode) {b : KnvNode}
    {q : KnvProtocol}, t.childlist = pre ++ b :: bs → (∀ c ∈ bs, c.tag = knvPkgBdyTag) → q.tree = some t →
    q.body = some (.child b.self) →
    Follows q bs := by
  intro bs
  induction bs with
  | nil =>
    intro pre b q hcs _ ht hbody
    refine .nil ?_
    rw [getNextRequest, ht, hbody, Option.bind_some, Option.bind_some, siblingsOf_append hnd hcs]
    rfl
  | cons c bs ih =>
    intro pre b q hcs htag ht hbody
    have hfind : findFirstBody (c :: bs) = some c := List.find?_cons_of_pos (by simpa using htag c (List.mem_cons_self ..))
    have heq : q.getNextRequest = q.withBody (some c) := by
      rw [getNextRequest, ht, hbody, Option.bind_some, Option.bind_some, siblingsOf_append hnd hcs, hfind]
    refine .cons (congrArg Prod.snd heq) ?_
    rw [heq]
    exact ih (pre ++ [b]) (by rw [hcs, List.append_assoc]; rfl) (fun d hd => htag d (List.mem_cons_of_mem _ hd)) ht rfl

/-- The bodies after the header are given. -/
theorem requests_bodies {t hdr : KnvNode} {bs : List KnvNode} {q : KnvProtocol} (hv : t.isValid = true)
    (hexp : t.expanded = true)
    (hnd : t.childAddrs.Nodup) (hcs : t.childlist = hdr :: bs) (hhdr : hdr.tag ≠ knvPkgBdyTag)
    (htag : ∀ c ∈ bs, c.tag = knvPkgBdyTag) (ht : q.tree = some t) : q.Requests bs := by
  have hfirst : q.getFirstRequest = q.withBody (findFirstBody bs) := by
    rw [getFirstRequest, ht, Option.bind_some, children, if_pos hv, innerExpand_of_expanded hexp, hcs, findFirstBody,
      List.find?_cons_of_neg (by simpa using hhdr)]
    rfl
  cases bs with
  | nil => exact congrArg Prod.snd hfirst
  | cons c bs =>
    have hfind : findFirstBody (c :: bs) = some c := List.find?_cons_of_pos (by simpa using htag c (List.mem_cons_self ..))
    rw [hfind] at hfirst
    refine ⟨congrArg Prod.snd hfirst, ?_⟩
    rw [hfirst]
    exact follows_bodies hnd [hdr] hcs (fun d hd => htag d (List.mem_cons_of_mem _ hd)) ht rfl

/-! ### The round trip -/

/-- What is encoded is the tree. -/
theorem encode_plain {t : KnvNode} {s : Bytes} (ht : p.tree = some t) (hasm : Assembly t) (htag : t.tag = knvPkgTag)
    (hret : p.retcode = 0) (hs : p.encode = .ok s) : s = t.plain := by
  rw [encode, if_neg (not_not_intro hret), encodeAll, ht] at hs
  simp only [htag, ne_eq, not_true, if_false] at hs
  split at hs
  · cases hs
  · next out hout =>
    cases hs
    exact serialize_written hasm hout

/-- The first byte of a packet is not that of the other format. -/
theorem headD_plain {t : KnvNode} (htag : t.tag = knvPkgTag) (htype : t.type = .string) : t.plain.headD 0 ≠ stxIpv6Pb := by
  have hhead : pbVint (pbTagWord .string knvPkgTag) = [0x9a, 0xdb, 0x01] := by decide
  rw [plain, fieldOf, htag, htype, if_pos rfl, encode_string, stringHead, hhead]
  exact (by decide : (0x9a : UInt8) ≠ stxIpv6Pb)

/-- A tree is parsed from its encoding. -/
theorem newFromBytes_plain {t : KnvNode} (htag : TagOk t.tag) (htype : t.type = .string)
    (hlen : t.plainVal.length < 2 ^ 64) :
    newFromBytes t.plain = .ok (t.reread t.plain.length 0) := by
  have hok : t.toField.Ok := by
    refine ⟨htag, ?_⟩
    rw [val_toField, if_pos htype]
    exact hlen
  have hbegin : pbBegin t.plain = some (t.toField, []) := by
    have h := pbBegin_encode hok []
    rwa [List.append_nil, toField, encode_norm, norm_norm] at h
  rw [newFromBytes, hbegin]
  rfl

/-- `InitHeaderInfo`, of a tree with the header for its first child: the header is expanded, and read. -/
theorem initHeaderInfo_first {q : KnvProtocol} {r hdr : KnvNode} {bs : List KnvNode} (ht : q.tree = some r)
    (hh : q.header = some hdr.self) (hcs : r.childlist = hdr :: bs) (hv : hdr.isValid = true) :
    ∃ t hdr', Touched { r with childlist := hdr' :: bs } t ∧ hdr'.self = hdr.self ∧ hdr'.tag = hdr.tag ∧
      q.initHeaderInfo = { q with tree := some t }.readHeader (hdr.innerExpand false false) := by
  obtain ⟨pk, hpk⟩ : ∃ pk, pk = (r.place (.ofChild 0)).parentKeyed := ⟨_, rfl⟩
  have hop : (r.place (.ofChild 0) |> fun pl => hdr.expandOp pl) = ⟨hdr.innerExpand pk false, [], .ok 0⟩ := by
    simp only [expandOp, expand, if_pos hv, hpk]
  have hnode : q.headerNode = some hdr := by
    rw [headerNode, ht, hh, Option.bind_some, Option.bind_some, childAt, hcs]
    exact List.find?_cons_of_pos (by simp)
  have hsame := expandSame pk false hdr
  refine ⟨_, hdr.innerExpand pk false, touched_handleAll (hdr.innerExpand pk false).self [] _, hsame.self, hsame.tag, ?_⟩
  rw [initHeaderInfo, hnode]
  simp only
  rw [KnvProtocol.onHeader, ht, hh, Option.bind_some, Option.bind_some, onChild_first hcs (fun pl n => n.expandOp pl) hop]
  simp only [setSlot_ofChild, hcs]
  rfl

/-- A body is linked as it is. -/
theorem map_toField_bodies {bs : List KnvNode} (h : List.Forall₂ (fun b c => ∃ a, c = KnvNode.at' b a) bodies bs) :
    bs.map toField = bodies.map toField := by
  induction h with
  | nil => rfl
  | cons hbc _ ih =>
    obtain ⟨a, rfl⟩ := hbc
    rw [List.map_cons, List.map_cons, ih, toField_at']

theorem mem_bodies {bs : List KnvNode} (h : List.Forall₂ (fun b c => ∃ a, c = KnvNode.at' b a) bodies bs) :
    ∀ b ∈ bodies, ∃ a, KnvNode.at' b a ∈ bs := by
  induction h with
  | nil => exact fun b hb => absurd hb List.not_mem_nil
  | cons hbc _ ih =>
    obtain ⟨a, rfl⟩ := hbc
    intro b hb
    rcases List.mem_cons.mp hb with rfl | hb
    · exact ⟨a, List.mem_cons_self ..⟩
    · obtain ⟨a', ha'⟩ := ih b hb
      exact ⟨a', List.mem_cons_of_mem _ ha'⟩

/-- **A packet is decoded**: the header says what was set, and the bodies follow in their order. -/
theorem initProtocol_reread {cmd subcmd seq : UInt32} {msg addr : Option Bytes} {t hdr : KnvNode} (hroot : Root hdr bodies t)
    (hhdr : Header (headerMetas cmd subcmd seq msg) (headerChildren addr) hdr) (hlen : t.plainVal.length < 2 ^ 64)
    (hb : ∀ b ∈ bodies, Assembly b ∧ b.tag = knvPkgBdyTag) (haddr : ∀ s, addr = some s → s.length = 16 ∨ s.length = 28)
    (sz a : ℕ) (q : KnvProtocol) (hq : q.tree = some (t.reread sz a)) (hheader : q.header = none) :
    q.initProtocol.isValid = true ∧ Settings cmd subcmd seq msg addr q.initProtocol ∧
      ∃ cs, q.initProtocol.Requests cs ∧ List.Forall₂ Alike bodies cs := by
  obtain ⟨bs, hbs, hbodies⟩ := hroot.childlist
  have hf : t.isFolded = false :=
    isFolded_of_below hroot.type hroot.expanded (.inr (by rw [hbs]; exact List.cons_ne_nil _ _))
  have hone : t.tag ≠ 1 := by
    rw [hroot.tag]
    decide
  obtain ⟨ms, -, hread, -, hcs⟩ := innerExpand_reread hroot.asm.written.here hf hlen hone sz a false
  have hrtag : ((t.reread sz a).innerExpand false false).tag = knvPkgTag := (expandSame ..).tag.trans hroot.tag
  have hvalid : (t.reread sz a).isValid = true := hroot.valid
  have hfindr := findChildByTag_innerExpand (t.reread sz a) knvPkgHdrTag
  rw [if_pos hvalid] at hfindr
  generalize hr : (t.reread sz a).innerExpand false false = r at hread hcs hrtag hfindr
  have hnothdr : ¬hdr.tag ≤ ucMaxMetaNum := by
    rw [hhdr.tag]
    decide
  have hmap : bs.map (fun c => sized c.toField) = bodies.map fun b => sized b.toField := by
    have hfields := map_toField_bodies hbodies
    have hsized : ∀ l : List KnvNode, l.map (fun c => sized c.toField) = (l.map toField).map sized := fun l => by
      rw [List.map_map]
      rfl
    rw [hsized, hsized, hfields]
  have hlist : r.childlist = hdr.reread hdr.toField.encode.length ms.length ::
      parsed false (ms.length + 1) (bodies.map fun b => sized b.toField) := by
    rw [hcs, hbs, List.map_cons, parsed, hmap, decide_eq_false (show ¬(sized hdr.toField).1.tag ≤ ucMaxMetaNum from hnothdr)]
    rfl
  have hhtag : (hdr.reread hdr.toField.encode.length ms.length).tag = knvPkgHdrTag := hhdr.tag
  have hbtag : ∀ c ∈ parsed false (ms.length + 1) (bodies.map fun b => sized b.toField), c.tag = knvPkgBdyTag := by
    intro c hc
    obtain ⟨p, hp, k, rfl⟩ := mem_parsed hc
    obtain ⟨b, hbmem, rfl⟩ := List.mem_map.mp hp
    exact (hb b hbmem).2
  have hfind : r.findChildByTag knvPkgHdrTag {} = (r, some (hdr.reread hdr.toField.encode.length ms.length).self) := by
    rw [← hhtag]
    refine findChildByTag_of_unique hread.indexed hread.shape hread.keys hread.valid hread.expanded
      (hlist ▸ List.mem_cons_self ..) (fun x hx hxt => ?_) {}
    rw [hlist] at hx
    rcases List.mem_cons.mp hx with hx | hx
    · exact hx
    · rw [hbtag x hx, hhtag] at hxt
      exact absurd hxt (by decide)
  -- the packet once the tree is expanded
  obtain ⟨q', hq'⟩ : ∃ q' : KnvProtocol, q' = { q with
      tree := some r
      header := some (hdr.reread hdr.toField.encode.length ms.length).self
      body := (findFirstBody (t.reread sz a).children).map fun b => .child b.self } := ⟨_, rfl⟩
  have hinit : q.initProtocol = q'.initHeaderInfo := by
    have htag0 : (t.reread sz a).tag = knvPkgTag := hroot.tag
    unfold initProtocol
    rw [hq]
    simp only
    rw [if_neg (not_not_intro htag0), expandTree, hheader]
    simp only
    rw [hfindr, hfind, hq']
    rfl
  have ht' : q'.tree = some r := hq' ▸ rfl
  have hh' : q'.header = some (hdr.reread hdr.toField.encode.length ms.length).self := hq' ▸ rfl
  obtain ⟨t', hdr', htouch, hself, htag', heq⟩ := initHeaderInfo_first ht' hh' hlist hhdr.valid
  have hmem : hdr ∈ t.childlist := hbs ▸ List.mem_cons_self ..
  have hlenh := Nat.lt_of_le_of_lt (length_child_le hf hmem hhdr.type) hlen
  have hcs' : t'.childlist = hdr' :: _ := htouch.childlist
  have htree : q.initProtocol.tree = some t' := by rw [hinit, heq]; rfl
  refine ⟨?_, ?_, _, requests_bodies ?_ ?_ ?_ hcs' ?_ hbtag htree, ?_⟩
  · rw [KnvProtocol.isValid, htree]
    exact beq_iff_eq.mpr (htouch.tag.trans hrtag)
  · rw [hinit, heq]
    exact settings_readHeader hhdr hlenh haddr ..
  · rw [KnvNode.isValid, htouch.tag]
    exact hread.valid
  · exact htouch.expanded.trans hread.expanded
  · have hnd := hread.shape.nodup_children
    rw [childAddrs, hlist, List.map_cons] at hnd
    rw [childAddrs, hcs', List.map_cons, hself]
    exact hnd
  · rw [htag', hhtag]
    decide
  · refine forall₂_reread _ (fun b hbmem sz a => ?_) fun b hbmem => ?_
    · obtain ⟨hasm, hbt⟩ := hb b hbmem
      obtain ⟨a', ha'⟩ := mem_bodies hbodies b hbmem
      have hbone : b.tag ≠ 1 := by
        rw [hbt]
        decide
      refine alike_reread hasm hbone (fun htype => ?_) sz a
      have hle := length_child_le (c := b.at' a') hf (hbs ▸ List.mem_cons_of_mem _ ha') htype
      rw [plainVal_at'] at hle
      exact Nat.lt_of_le_of_lt hle hlen
    · rw [(hb b hbmem).2]
      exact ⟨by decide, by decide⟩

/-- **A packet is read back.** Whatever was set in it and added to it, if `Encode` succeeds, the packet that is made of
its output is valid, says the same, and gives the bodies in the order in which they were added: each with the key and
the contents of the tree that was added. -/
theorem ofBuf_encode {cmd subcmd seq : UInt32} {msg addr : Option Bytes} {bodies : List KnvNode} {p : KnvProtocol}
    {s : Bytes}
    (initFromOidbPkg : Bytes → KnvProtocol → KnvProtocol) (h : Prepared cmd subcmd seq msg addr bodies p)
    (hs : p.encode = .ok s) (hlen : s.length < 2 ^ 31) :
    (ofBuf initFromOidbPkg s).isValid = true ∧ Settings cmd subcmd seq msg addr p ∧
      Settings cmd subcmd seq msg addr (ofBuf initFromOidbPkg s) ∧
      ∃ cs, (ofBuf initFromOidbPkg s).Requests cs ∧ List.Forall₂ Alike bodies cs := by
  obtain ⟨⟨t, hdr, ht, -, hhdr, hroot⟩, hset, hb, haddr⟩ := holds_of_prepared h
  have hplain := encode_plain ht hroot.asm hroot.tag hset.retcode hs
  have hlen' : t.plainVal.length < 2 ^ 64 := by
    have hle := length_norm_le (t.fieldOf t.plainVal)
    have hstr := val_toField t
    rw [if_pos hroot.type] at hstr
    rw [show (t.fieldOf t.plainVal).norm = t.toField from rfl, hstr,
      show (t.fieldOf t.plainVal).encode = t.plain from rfl, ← hplain] at hle
    omega
  have htagok : TagOk t.tag := hroot.asm.written.here.tag
  have hof : ofBuf initFromOidbPkg s = initProtocol { tree := some (t.reread t.plain.length 0) } := by
    rw [ofBuf, hplain, if_neg (headD_plain hroot.tag hroot.type), newFromBytes_plain htagok hroot.type hlen']
  rw [hof]
  obtain ⟨hvalid, hread, hreq⟩ := initProtocol_reread hroot hhdr hlen' hb haddr t.plain.length 0
    { tree := some (t.reread t.plain.length 0) } rfl rfl
  exact ⟨hvalid, hset, hread, hreq⟩

/-- With a return message, an IPv4 address and a body that has a key and a number. -/
theorem ofBuf_encode_body : ∃ b p s, Prepared 1 2 3 (some [104]) (some (List.replicate 16 7)) [b] p ∧ p.encode = .ok s ∧
    b.childlist.map (·.tag) = [11] ∧ ((ofBuf (fun _ q => q) s).isValid = true ∧ Settings 1 2 3 (some [104])
      (some (List.replicate 16 7)) p ∧
      Settings 1 2 3 (some [104]) (some (List.replicate 16 7)) (ofBuf (fun _ q => q) s) ∧
      ∃ cs, (ofBuf (fun _ q => q) s).Requests cs ∧ List.Forall₂ Alike [b] cs) := by
  obtain ⟨n, hn⟩ : ∃ n, newTree knvPkgBdyTag (some ⟨.string, [107]⟩) = .ok n := ⟨_, rfl⟩
  obtain ⟨leaf, hleaf⟩ : ∃ n, KnvNode.new 11 .varint .string none (some { i64 := 5 }) = .ok n := ⟨_, rfl⟩
  obtain ⟨out, hout⟩ : ∃ out, (Op.insertChild leaf true true).runAt [] n = some out := ⟨_, rfl⟩
  have hret : out.ret = .ok 0 := by
    cases hn
    cases hleaf
    cases hout
    rfl
  have htree : Assembled n := .newTree ⟨by decide, by decide⟩ hn
  have hchild : Assembled leaf := .new ⟨by decide, by decide⟩ (fun hne => absurd rfl hne) hleaf
  have hbody : Assembled out.node := by
    refine .insertChild htree hchild (fun s hs => absurd hs List.not_mem_nil) (fun t ht hexp => ?_) hout hret
    cases hn
    cases ht
    cases hexp
  have htag : out.node.tag = knvPkgBdyTag := by
    cases hn
    cases hleaf
    cases hout
    rfl
  have hprep : Prepared 1 2 3 (some [104]) (some (List.replicate 16 7)) [out.node] _ :=
    ((Prepared.create.setRetErrorMsg (by decide)).setRspAddr (.inl rfl)).addBody hbody htag
  generalize hp : (KnvProtocol.addBody out.node true _).1 = p at hprep
  have hok : (match p.encode with
      | .ok s => decide (s.length < 2 ^ 31)
      | .error _ => false) = true := by
    cases hn
    cases hleaf
    cases hout
    subst hp
    decide +kernel
  cases hs : p.encode with
  | error e =>
    rw [hs] at hok
    cases hok
  | ok s =>
    rw [hs] at hok
    refine ⟨out.node, p, s, hprep, hs, ?_, ofBuf_encode _ hprep hs (of_decide_eq_true hok)⟩
    cases hn
    cases hleaf
    cases hout
    rfl

end KnvProtocol

end KnvProto
