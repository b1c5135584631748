import KnvProto.Packet.Belongs
import KnvProto.Packet.Numbers
import KnvProto.Tree.Duplicate

/-!
# The length of a part

What `EncodePart` makes of a packet that has been cut. A part is the header with the two
numbers and one of the pieces, and every change on the way there is a change of the header or
of the pieces, so that its length is known from the packet before `Split` (`Cut`).

`Split` leaves 16 bytes for all that a part adds to the header and the piece, and what is added
is as long as five varints are: whether it is enough is `Reserved`.
-/

namespace KnvProto

open PathEdit KnvNode

namespace KnvProtocol

/-! ### The length of a packet -/

/-- A packet is as long as it was expected to be. -/
theorem length_pack {h : KnvNode} {body : Option KnvNode} {out : Bytes} (hp : pack h body = .ok out) :
    out.length = pbEvalLength knvPkgTag .string 0 (h.evaluateSize.evalSz.toNat + bodySize body) := by
  unfold pack at hp
  simp only at hp
  generalize htotal : pbEvalLength knvPkgTag .string 0 (h.evaluateSize.evalSz.toNat + bodySize body) = total at hp ⊢
  split at hp
  · cases hp
  next front hfront =>
  have hlen : front.out.length ≤ total := by
    rw [pbAddStringHead_out hfront, ← htotal, pbEvalLength_eq_stringHead]
    exact Nat.le_add_right ..
  split at hp
  · cases hp
  next bs hbs =>
  have hroom := (roomy h _ _ _ hbs).1
  have hfit : (front.out ++ bs).length ≤ total := by
    rw [List.length_append]
    omega
  split at hp
  · cases hp
  next all hall =>
  have hall' : all.length ≤ total := by
    unfold appendBody at hall
    split at hall
    · split at hall
      · cases hall
        exact hfit
      split at hall
      · cases hall
      next cs hcs =>
      cases hall
      have hroom' := (roomy _ _ _ _ hcs).1
      rw [List.length_append]
      omega
    · cases hall
      exact hfit
  cases hp
  rw [List.length_append, List.length_replicate]
  omega

/-! ### A packet and its header -/

/-- The tree of a packet, and the header in it. -/
structure Headed (t h : KnvNode) (p : KnvProtocol) : Prop where
  tree : p.tree = some t
  rooted : Rooted t
  mem : h ∈ t.childlist
  header : p.header = some h.self
  tag : h.tag = knvPkgHdrTag

variable {p q : KnvProtocol} {t t' h h' : KnvNode}

theorem Headed.isValid (H : Headed t h p) : p.isValid = true := by
  unfold KnvProtocol.isValid
  rw [H.tree]
  exact beq_iff_eq.mpr H.rooted.tag

theorem Headed.headerNode (H : Headed t h p) : p.headerNode = some h := by
  rw [KnvProtocol.headerNode, H.tree, H.header]
  exact find?_self H.rooted.shape.nodup_children H.mem

theorem Headed.congr (H : Headed t h p) (ht : q.tree = p.tree) (hh : q.header = p.header) : Headed t h q :=
  ⟨ht.trans H.tree, H.rooted, H.mem, hh.trans H.header, H.tag⟩

/-- A tree with another node in the place of the header. -/
structure Replaced (t h t' h' : KnvNode) : Prop where
  new : h' ∈ t'.childlist
  old : ∀ c ∈ t'.childlist, c = h' ∨ c ∈ t.childlist ∧ c.self ≠ h.self
  others : ∀ c ∈ t.childlist, c.self ≠ h.self → c ∈ t'.childlist

theorem Replaced.refl (hs : Shape t) (hmem : h ∈ t.childlist) : Replaced t h t h := by
  refine ⟨hmem, fun c hc => ?_, fun _ hc _ => hc⟩
  by_cases hself : c.self = h.self
  · exact .inl (List.inj_on_of_nodup_map hs.nodup_children hc hmem hself)
  · exact .inr ⟨hc, hself⟩

theorem Replaced.trans {t'' h'' : KnvNode} (hr : Replaced t h t' h') (hr' : Replaced t' h' t'' h'')
    (hself : h'.self = h.self) : Replaced t h t'' h'' := by
  refine ⟨hr'.new, fun c hc => ?_, fun c hc hne => hr'.others c (hr.others c hc hne) (hself ▸ hne)⟩
  rcases hr'.old c hc with rfl | ⟨hc', hne⟩
  · exact .inl rfl
  · rcases hr.old c hc' with rfl | hold
    · exact absurd rfl hne
    · exact .inr hold

/-- **What is run on the header** makes another header of it, and leaves the other children alone. -/
theorem Headed.onHeader (H : Headed t h p) {f : Place → KnvNode → Out} {o : Out} (ho : f (t.place (.ofChild 0)) h = o)
    (hstay : Stays h o.node) : ∃ t', Headed t' o.node { p with tree := some t' } ∧ Replaced t h t' o.node ∧
      ∀ k, p.onHeader f k = k { p with tree := some t' } o.ret := by
  obtain ⟨i, hi⟩ := List.getElem?_of_mem H.mem
  have hchild := @Shape.onChild t h i H.rooted.shape hi f {} o ho
  have ht := touched_handleAll o.node.self o.msgs (t.setSlot (.ofChild i) o.node)
  have hlist : ((t.setSlot (.ofChild i) o.node).handleAll o.node.self o.msgs).1.childlist =
    t.childlist.set i o.node := ht.childlist
  obtain ⟨hlt, rfl⟩ := List.getElem?_eq_some_iff.mp hi
  have hroot : Rooted (t.setSlot (.ofChild i) o.node) := by
    refine ⟨H.rooted.tag, ?_, H.rooted.expanded, H.rooted.metas, fun _ => H.rooted.type (List.ne_nil_of_mem H.mem)⟩
    refine H.rooted.shape.of_sublist (fun hf => absurd (H.rooted.expanded.symm.trans hf) Bool.noConfusion) ?_ rfl
      H.rooted.shape.evaluated
    rw [addrs_setSlot (s := .ofChild i) hi hstay.self]
  refine ⟨_, ⟨rfl, hroot.touched ht, hlist ▸ List.mem_set hlt _, H.header.trans (congrArg some hstay.self.symm),
    hstay.tag.trans H.tag⟩, ⟨hlist ▸ List.mem_set hlt _, fun c hc => ?_, fun c hc hne => ?_⟩, fun k => ?_⟩
  · rw [hlist] at hc
    obtain ⟨j, hj, rfl⟩ := List.getElem_of_mem hc
    have hj' : j < t.childlist.length := by simpa using hj
    by_cases hij : i = j
    · subst hij
      exact .inl (List.getElem_set_self ..)
    · rw [List.getElem_set_ne hij]
      refine .inr ⟨List.getElem_mem hj', fun hself => hij ?_⟩
      exact (H.rooted.shape.index_of_self hj' hlt hself).symm
  · rw [hlist]
    obtain ⟨j, hj, rfl⟩ := List.getElem_of_mem hc
    have hij : i ≠ j := by
      rintro rfl
      exact hne rfl
    exact List.mem_iff_getElem?.mpr ⟨j, by rw [List.getElem?_set_ne hij]; exact List.getElem?_eq_getElem hj⟩
  · unfold KnvProtocol.onHeader
    rw [H.tree, H.header]
    simp only [Option.bind_some, hchild]

/-! ### The reply -/

/-- The metas of the header have been changed. -/
structure Turned (t h : KnvNode) (p : KnvProtocol) (t' h' : KnvNode) (q : KnvProtocol) : Prop where
  headed : Headed t' h' q
  replaced : Replaced t h t' h'
  tidy : Tidy h'
  beside : Beside h h'
  count : q.totalSplitCount = p.totalSplitCount
  size : q.maxPkgSz = p.maxPkgSz

theorem Turned.refl (H : Headed t h p) (htidy : Tidy h) : Turned t h p t h p :=
  ⟨H, .refl H.rooted.shape H.mem, htidy, .refl h, rfl, rfl⟩

theorem Turned.trans {t'' h'' : KnvNode} {r : KnvProtocol} (H : Turned t h p t' h' q) (H' : Turned t' h' q t'' h'' r) :
    Turned t h p t'' h'' r :=
  ⟨H'.headed, H.replaced.trans H'.replaced H.beside.self, H'.tidy, H.beside.trans H'.beside, H'.count.trans H.count,
    H'.size.trans H.size⟩

/-- Only other members are changed. -/
theorem Turned.congr {r : KnvProtocol} (H : Turned t h p t' h' q) (ht : r.tree = q.tree) (hh : r.header = q.header)
    (hc : r.totalSplitCount = q.totalSplitCount) (hs : r.maxPkgSz = q.maxPkgSz) : Turned t h p t' h' r :=
  ⟨H.headed.congr ht hh, H.replaced, H.tidy, H.beside, hc.trans H.count, hs.trans H.size⟩

/-- What is run on the metas of the header. -/
theorem Headed.turn (H : Headed t h p) {f : Place → KnvNode → Out} {o : Out} (ho : f (t.place (.ofChild 0)) h = o)
    (htidy : Tidy o.node) (hb : Beside h o.node) : ∃ t', Turned t h p t' o.node { p with tree := some t' } ∧
      ∀ k, p.onHeader f k = k { p with tree := some t' } o.ret := by
  obtain ⟨t', hhead, hrep, hon⟩ := H.onHeader ho ⟨hb.self, hb.tag, hb.type⟩
  exact ⟨t', ⟨hhead, hrep, htidy, hb, rfl, rfl⟩, hon⟩

/-- `SetRetCode`. -/
theorem Headed.setRetCode (H : Headed t h p) (htidy : Tidy h) (hexp : h.expanded = true) (v : UInt32) :
    ∃ t' h', Turned t h p t' h' (p.setRetCode v).1 ∧ (p.setRetCode v).1.retmsg = p.retmsg ∧
      ((p.setRetCode v).2 = 0 → (p.setRetCode v).1.retcode = v) := by
  have hset : setField knvPkgHdrRetTag .varint { i64 := v.toUInt64 } (t.place (.ofChild 0)) h =
      h.setMetaInner knvPkgHdrRetTag .varint (some { i64 := v.toUInt64 }) true (t.place (.ofChild 0)) := by
    rw [setField, if_pos (by decide)]
    exact setMeta_rule (P := fun o => o = h.setMetaInner ..) (fun _ hone => absurd hone (by decide)) fun _ => rfl
  obtain ⟨htidy', hb⟩ := htidy.setMetaInner hexp knvPkgHdrRetTag .varint (some { i64 := v.toUInt64 }) (t.place (.ofChild 0))
  unfold KnvProtocol.setRetCode setHeaderIntField
  rw [H.isValid]
  simp only [Bool.not_true, Bool.false_eq_true, if_false]
  obtain ⟨t', hturn, hon⟩ := H.turn hset htidy' hb
  rw [hon]
  cases (h.setMetaInner knvPkgHdrRetTag .varint (some { i64 := v.toUInt64 }) true (t.place (.ofChild 0))).ret with
  | error e => exact ⟨t', _, hturn.congr rfl rfl rfl rfl, rfl, fun hzero =>
      absurd (show (-2 : ℤ) = 0 from hzero) (by decide)⟩
  | ok r => exact ⟨t', _, hturn.congr rfl rfl rfl rfl, rfl, fun _ => UInt32.toUInt32_toUInt64 v⟩

/-- `SetRetErrorMsg` of no message. -/
theorem Headed.clearMsg (H : Headed t h p) (htidy : Tidy h) (hexp : h.expanded = true) :
    ∃ t' h', Turned t h p t' h' (p.setRetErrorMsg []).1 ∧ (p.setRetErrorMsg []).2 = 0 ∧ (p.setRetErrorMsg []).1.retmsg = [] ∧
      (p.setRetErrorMsg []).1.retcode = p.retcode ∧ h'.evalValSz = h.evalValSz + metaOffset knvPkgHdrErrTag h := by
  have hset : removeField knvPkgHdrErrTag (t.place (.ofChild 0)) h = h.removeMetaByTag knvPkgHdrErrTag
    (t.place (.ofChild 0)) := by
    rw [removeField, if_pos (by decide)]
  have hle : knvPkgHdrErrTag ≤ ucMaxMetaNum := by decide
  obtain ⟨hret, htidy', hb, hsz⟩ := htidy.removeMetaByTag (isValid_of_tag H.tag (by decide)) hexp hle (by decide)
    (t.place (.ofChild 0))
  unfold KnvProtocol.setRetErrorMsg setHeaderStringField
  rw [H.isValid]
  simp only [Bool.not_true, Bool.false_eq_true, if_false, ne_eq, not_true_eq_false]
  obtain ⟨t', hturn, hon⟩ := H.turn hset htidy' hb
  rw [hon, hret]
  exact ⟨t', _, hturn.congr rfl rfl rfl rfl, rfl, rfl, rfl, hsz⟩

/-- What clearing the message adds to the size of the header's value. -/
def pending (p : KnvProtocol) (h : KnvNode) : ℤ := if p.retmsg = [] then 0 else metaOffset knvPkgHdrErrTag h

/-- **The reply is cleared.** -/
theorem Headed.setReply (H : Headed t h p) (htidy : Tidy h) (hexp : h.expanded = true) :
    ∃ t' h', Turned t h p t' h' (p.setReply 0 []).1 ∧
      ((p.setReply 0 []).2 = 0 → (p.setReply 0 []).1.retcode = 0 ∧ (p.setReply 0 []).1.retmsg = []) ∧
      (p.retcode = 0 → (p.setReply 0 []).2 = 0 ∧ h'.evalValSz = h.evalValSz + p.pending h) := by
  have hcode : ∃ t' h', Turned t h p t' h' (if (0 : UInt32) ≠ p.retcode then p.setRetCode 0 else (p, 0)).1 ∧
      ((if (0 : UInt32) ≠ p.retcode then p.setRetCode 0 else (p, 0)).2 = 0 →
        (if (0 : UInt32) ≠ p.retcode then p.setRetCode 0 else (p, 0)).1.retcode = 0) ∧
      (p.retcode = 0 → h' = h ∧ (if (0 : UInt32) ≠ p.retcode then p.setRetCode 0 else (p, 0)) = (p, 0)) := by
    by_cases hzero : (0 : UInt32) ≠ p.retcode
    · obtain ⟨t', h', hturn, -, hret⟩ := H.setRetCode htidy hexp 0
      rw [if_pos hzero]
      exact ⟨t', h', hturn, hret, fun hz => absurd hz.symm hzero⟩
    · rw [if_neg hzero]
      exact ⟨t, h, .refl H htidy, fun _ => (not_not.mp hzero).symm, fun _ => ⟨rfl, rfl⟩⟩
  unfold KnvProtocol.setReply
  rw [H.isValid]
  simp only [Bool.not_true, Bool.false_eq_true, if_false]
  generalize (if (0 : UInt32) ≠ p.retcode then p.setRetCode 0 else (p, 0)) = r at hcode ⊢
  obtain ⟨t₁, h₁, hturn, hret, hsame⟩ := hcode
  have hexp₁ := hturn.beside.expanded.trans hexp
  by_cases hfail : r.2 ≠ 0
  · rw [if_pos hfail]
    refine ⟨t₁, h₁, hturn.congr rfl rfl rfl rfl, fun hz => absurd (show (-2 : ℤ) = 0 from hz) (by decide), fun hz => ?_⟩
    exact absurd (congrArg Prod.snd (hsame hz).2) hfail
  rw [if_neg hfail]
  by_cases hmsg : [] ≠ r.1.retmsg
  · obtain ⟨t₂, h₂, hturn', hzero, hnil, hcode', hsz⟩ := hturn.headed.clearMsg hturn.tidy hexp₁
    rw [if_pos hmsg, hzero, if_neg (not_not_intro rfl)]
    refine ⟨t₂, h₂, hturn.trans hturn', fun _ => ⟨hcode'.trans (hret (not_not.mp hfail)), hnil⟩, fun hz => ⟨rfl, ?_⟩⟩
    obtain ⟨rfl, rfl⟩ := hsame hz
    rw [hsz, pending, if_neg (Ne.symm hmsg)]
  · rw [if_neg hmsg, if_neg (not_not_intro rfl)]
    refine ⟨t₁, h₁, hturn, fun _ => ⟨hret (not_not.mp hfail), (not_not.mp hmsg).symm⟩, fun hz => ⟨rfl, ?_⟩⟩
    obtain ⟨rfl, rfl⟩ := hsame hz
    rw [pending, if_pos (not_not.mp hmsg).symm, Int.add_zero]

/-- The fields of an earlier splitting are taken out. -/
theorem Headed.unsplit (H : Headed t h p) (htidy : Tidy h) : ∃ t' h', Headed t' h' p.unsplit ∧ Replaced t h t' h' ∧ Tidy h' ∧
    h'.expanded = true ∧ (∀ c ∈ h'.childlist, c.tag ≠ knvPkgHdrTotalSplitCount ∧ c.tag ≠ knvPkgHdrCurrSplitIndex) ∧
    p.unsplit = { p with totalSplitCount := 1, tree := some t' } := by
  have hv := isValid_of_tag H.tag (by decide)
  have H₀ : Headed t h { p with totalSplitCount := 1 } := H.congr rfl rfl
  obtain ⟨htidy₁, hexp₁, hlist₁⟩ := htidy.removeChildrenByTag hv knvPkgHdrTotalSplitCount (t.place (.ofChild 0))
  obtain ⟨t₁, H₁, hrep₁, hon₁⟩ :=
    H₀.onHeader (f := removeChildrenByTag knvPkgHdrTotalSplitCount) rfl (stays_removeChildrenByTag ..)
  have hself := (stays_removeChildrenByTag knvPkgHdrTotalSplitCount (t.place (.ofChild 0)) h).self
  unfold KnvProtocol.unsplit
  rw [hon₁]
  generalize removeChildrenByTag knvPkgHdrTotalSplitCount (t.place (.ofChild 0)) h = o₁ at *
  obtain ⟨htidy₂, hexp₂, hlist₂⟩ := htidy₁.removeChildrenByTag (isValid_of_tag H₁.tag (by decide)) knvPkgHdrCurrSplitIndex
    (t₁.place (.ofChild 0))
  obtain ⟨t₂, H₂, hrep₂, hon₂⟩ :=
    H₁.onHeader (f := removeChildrenByTag knvPkgHdrCurrSplitIndex) rfl (stays_removeChildrenByTag ..)
  rw [hon₂]
  refine ⟨t₂, _, H₂, hrep₁.trans hrep₂ hself, htidy₂, hexp₂, fun c hc => ?_, rfl⟩
  rw [hlist₂, innerExpand_of_expanded hexp₁] at hc
  obtain ⟨hc, hindex⟩ := List.mem_filter.mp hc
  rw [hlist₁] at hc
  exact ⟨of_decide_eq_true (List.mem_filter.mp hc).2, of_decide_eq_true hindex⟩

/-! ### The pieces -/

/-- The children with a tag are one node, at some address. -/
def HoldsNode (tag : UInt32) (n : KnvNode) (t : KnvNode) : Prop :=
  (∃ c ∈ t.childlist, c.tag = tag) ∧ ∀ c ∈ t.childlist, c.tag = tag → ∃ a, c = n.at' a

/-- A header that is replaced is none of them. -/
theorem HoldsNode.replaced {tag : UInt32} {n : KnvNode} (hn : HoldsNode tag n t) (hr : Replaced t h t' h') (hs : Shape t)
    (hmem : h ∈ t.childlist) (ht : h.tag ≠ tag) (ht' : h'.tag ≠ tag) : HoldsNode tag n t' := by
  obtain ⟨⟨c, hc, hct⟩, hall⟩ := hn
  refine ⟨⟨c, hr.others c hc fun hself => ht ?_, hct⟩, fun c hc hct => ?_⟩
  · rw [← List.inj_on_of_nodup_map hs.nodup_children hc hmem hself]
    exact hct
  · rcases hr.old c hc with rfl | ⟨hc, -⟩
    · exact absurd hct ht'
    · exact hall c hc hct

/-- A piece of an encoding: the last one is what is left. -/
def piece (szPart nrPkgs : ℕ) (m : Bytes) (i : ℕ) : Bytes :=
  (m.drop (i * szPart)).take (if i = nrPkgs - 1 then m.length - (nrPkgs - 1) * szPart else szPart)

/-- The node that `Split` makes for a piece. -/
def partNode (szPart nrPkgs : ℕ) (m : Bytes) (i : ℕ) : KnvNode :=
  initNode (partTag i) .string (some { str := piece szPart nrPkgs m i })

theorem evalSz_partNode (szPart nrPkgs : ℕ) (m : Bytes) (i : ℕ) :
    (partNode szPart nrPkgs m i).evalSz = pbEvalLength (partTag i) .string 0 (piece szPart nrPkgs m i).length := by
  simp only [partNode, initNode, PbVal.pick_string, if_true, Nat.lt_irrefl, if_false]
  rfl

theorem partTag_inj' {i j : ℕ} (hi : i < 2495) (hj : j < 2495) (h : partTag i = partTag j) : i = j :=
  partTag_inj (by omega) (by omega) h

/-- A piece is put into the tree, in the place of all that has its tag. -/
theorem Headed.putPart (H : Headed t h p) {part : KnvNode} {tag : UInt32} (htag : part.tag = tag) (hsz : 0 ≤ part.evalSz)
    (hne : tag ≠ knvPkgHdrTag) {r : ℕ}
    (hr : (insertChild part true true {} (t.removeChildrenByTag tag {}).node).ret = .ok r) :
    ∃ t', t' = (insertChild part true true {} (t.removeChildrenByTag tag {}).node).node ∧
      Headed t' h { p with tree := some t' } ∧ HoldsNode tag part t' ∧
      ∀ tag' n, tag' ≠ tag → HoldsNode tag' n t → HoldsNode tag' n t' := by
  obtain ⟨htidy₁, hexp₁, hlist₁⟩ := Tidy.removeChildrenByTag ⟨H.rooted.shape, H.rooted.metas⟩ H.rooted.valid tag {}
  rw [innerExpand_of_expanded H.rooted.expanded] at hlist₁
  have hroot₁ : Rooted (t.removeChildrenByTag tag {}).node :=
    (Keeps.removeChildrenByTag (P := fun _ => False) H.rooted (fun _ hf => hf.elim) {}).rooted
  generalize (t.removeChildrenByTag tag {}).node = t₁ at *
  have hroot₂ := (Keeps.insertChild (P := fun _ => False) hroot₁ part true true {}).rooted
  obtain ⟨-, htype, -⟩ := insertChild_ok hr
  have hnode : (insertChild part true true {} t₁).node = ((t₁.linkChild part true).finish part.evalSz).node := by
    rw [insertChild_own hroot₁.valid htype hexp₁ hsz]
  have hlist₂ : (insertChild part true true {} t₁).node.childlist = t₁.childlist ++ [part.at' t₁.slots] := by
    rw [hnode, (touched_finish ..).childlist, childlist_linkChild, if_pos rfl]
  have hmem : ∀ c, c ∈ (insertChild part true true {} t₁).node.childlist ↔
      (c ∈ t.childlist ∧ c.tag ≠ tag) ∨ c = part.at' t₁.slots := by
    intro c
    rw [hlist₂, hlist₁, List.mem_append, List.mem_filter, List.mem_singleton, decide_eq_true_iff]
  refine ⟨_, rfl, ⟨rfl, hroot₂, (hmem h).mpr (.inl ⟨H.mem, fun ht => hne (ht.symm.trans H.tag)⟩), H.header, H.tag⟩,
    ⟨⟨_, (hmem _).mpr (.inr rfl), htag⟩, fun c hc hct => ?_⟩, fun tag' n hne' ⟨⟨c, hc, hct⟩, hall⟩ =>
    ⟨⟨c, (hmem c).mpr (.inl ⟨hc, hct ▸ hne'⟩), hct⟩, fun c hc hct => ?_⟩⟩
  · rcases (hmem c).mp hc with ⟨-, hct'⟩ | rfl
    · exact absurd hct hct'
    · exact ⟨_, rfl⟩
  · rcases (hmem c).mp hc with ⟨hc, -⟩ | rfl
    · exact hall c hc hct
    · exact absurd (hct.symm.trans htag) hne'

/-- **The loop that puts the pieces into the tree.** -/
theorem Headed.putParts {szPart nrPkgs : ℕ} {m : Bytes} : ∀ {is : List ℕ} {p : KnvProtocol} {t : KnvNode}, Headed t h p →
    (∀ i ∈ is, i < 2495) → putParts szPart nrPkgs m is p = (q, 0) → ∃ t', Headed t' h q ∧ q = { p with tree := some t' } ∧
      ∀ i < 2495, i ∈ is ∨ HoldsNode (partTag i) (partNode szPart nrPkgs m i) t →
        HoldsNode (partTag i) (partNode szPart nrPkgs m i) t' := by
  intro is
  induction is with
  | nil =>
    intro p t H _ hput
    cases hput
    refine ⟨t, H, ?_, fun i _ hi => hi.resolve_left List.not_mem_nil⟩
    rw [← H.tree]
  | cons i is ih =>
    intro p t H hlt hput
    have hi := hlt i (List.mem_cons_self ..)
    obtain ⟨hmeta, hhdr, -⟩ := partTag_apart hi
    have hzero : partTag i ≠ 0 := fun h0 => absurd hmeta (by rw [h0]; decide)
    unfold KnvProtocol.putParts at hput
    rw [H.tree] at hput
    simp only [KnvNode.new, if_neg hzero] at hput
    have hsz : 0 ≤ (partNode szPart nrPkgs m i).evalSz := evalSz_partNode .. ▸ Int.natCast_nonneg _
    cases hr : (insertChild (partNode szPart nrPkgs m i) true true {} (t.removeChildrenByTag (partTag i) {}).node).ret with
    | error e =>
      unfold partNode piece at hr
      rw [hr] at hput
      simp only [fail, Prod.mk.injEq] at hput
      exact absurd hput.2 (by decide)
    | ok r =>
      obtain ⟨t₁, ht₁, H₁, hholds, hkeep⟩ :=
        H.putPart (show (partNode szPart nrPkgs m i).tag = partTag i from rfl) hsz hhdr hr
      unfold partNode piece at hr ht₁
      rw [hr] at hput
      simp only at hput
      rw [← ht₁] at hput
      obtain ⟨t', H', hq, hall⟩ := ih H₁ (fun j hj => hlt j (List.mem_cons_of_mem _ hj)) hput
      refine ⟨t', H', hq, fun j hj hmem => hall j hj ?_⟩
      by_cases hij : j = i
      · subst hij
        exact .inr hholds
      · rcases hmem with hmem | hold
        · exact .inl ((List.mem_cons.mp hmem).resolve_left hij)
        · exact .inr (hkeep _ _ (fun heq => hij (partTag_inj' hj hi heq)) hold)

/-! ### Encoding the parts -/

/-- A packet that has been cut into `n` parts: the header's value has the size `v` with the number of the parts,
without an index and a message. -/
structure Cut (n : ℕ) (part : ℕ → KnvNode) (v : ℤ) (t h : KnvNode) (q : KnvProtocol) : Prop where
  headed : Headed t h q
  numbered : Numbered (v - q.pending h) h
  retcode : q.retcode = 0
  parts : ∀ i < n, HoldsNode (partTag i) (part i) t

variable {n : ℕ} {part : ℕ → KnvNode} {v : ℤ}

theorem Cut.congr {r : KnvProtocol} (H : Cut n part v t h q) (ht : r.tree = q.tree) (hh : r.header = q.header)
    (hret : r.retcode = q.retcode) (hmsg : r.retmsg = q.retmsg) : Cut n part v t h r := by
  refine ⟨H.headed.congr ht hh, ?_, hret.trans H.retcode, H.parts⟩
  rw [pending, hmsg]
  exact H.numbered

/-- The header is replaced. -/
theorem Cut.replaced_parts (H : Cut n part v t h q) (hn : n ≤ 2495) (hr : Replaced t h t' h')
    (htag : h'.tag = knvPkgHdrTag) : ∀ i < n, HoldsNode (partTag i) (part i) t' := by
  intro i hi
  obtain ⟨-, hhdr, -⟩ := partTag_apart (Nat.lt_of_lt_of_le hi hn)
  exact (H.parts i hi).replaced hr H.headed.rooted.shape H.headed.mem (fun ht => hhdr (ht.symm.trans H.headed.tag))
    fun ht => hhdr (ht.symm.trans htag)

/-- The header that a child is encoded with, and the length of the encoding. -/
theorem Cut.encodeChild (H : Cut n part v t h q) (hn : n ≤ 2495) (a : ℕ) : ∃ t' h', Cut n part v t' h' (q.encodeChild a).1 ∧
    (q.encodeChild a).1.totalSplitCount = q.totalSplitCount ∧ (q.encodeChild a).1.maxPkgSz = q.maxPkgSz ∧
    ∀ m, (q.encodeChild a).2 = .ok m → ∃ b ∈ t.childlist, b.self = a ∧ h'.evalValSz = h.evalValSz + q.pending h ∧
      m.length = pbEvalLength knvPkgTag .string 0 (h'.evaluateSize.evalSz.toNat + b.evaluateSize.evalSz.toNat) := by
  obtain ⟨t', h', hturn, hret, hsame⟩ := H.headed.setReply H.numbered.tidy H.numbered.expanded
  obtain ⟨hzero, hsz⟩ := hsame H.retcode
  obtain ⟨hcode, hmsg⟩ := hret hzero
  have hcut : Cut n part v t' h' (q.setReply 0 []).1 := by
    refine ⟨hturn.headed, ?_, hcode, H.replaced_parts hn hturn.replaced hturn.headed.tag⟩
    have hnum := H.numbered.beside hturn.tidy hturn.beside hsz
    rw [pending, if_pos hmsg]
    have hv : v - 0 = v - q.pending h + q.pending h := by omega
    exact hv ▸ hnum
  unfold KnvProtocol.encodeChild
  rw [H.headed.tree]
  simp only [Option.bind_some]
  cases hb : childAt t a with
  | none => exact ⟨t, h, H, rfl, rfl, fun m hm => nomatch hm⟩
  | some b =>
    have hself := List.find?_some (show List.find? _ _ = some b from hb)
    have hheader := hturn.headed.headerNode
    simp only [encodeWithBodyMem, encodeWithBody, encodeWith]
    generalize q.setReply 0 [] = r at hturn hzero hcut hheader ⊢
    obtain ⟨r, z⟩ := r
    obtain rfl : z = 0 := hzero
    simp only [hheader]
    cases hp : pack h' (some b) with
    | error e => exact ⟨t', h', hcut.congr rfl rfl rfl rfl, hturn.count, hturn.size, fun m hm => nomatch hm⟩
    | ok out =>
      refine ⟨t', h', hcut, hturn.count, hturn.size, fun m hm =>
        ⟨b, List.mem_of_find?_eq_some hb, of_decide_eq_true hself, hsz, ?_⟩⟩
      simp only [alloc] at hm
      split at hm
      · cases hm
      · cases hm
        exact length_pack hp

theorem ofInt_partTag {i : ℕ} (hi : i < 2 ^ 32) : knvPkgPartTagBase + UInt32.ofInt (i : ℤ) = partTag i := by
  rw [partTag, UInt32.ofInt]
  congr 2
  omega

theorem ofInt_index {i : ℕ} (hi : i < 2 ^ 64) : UInt64.ofInt (i : ℤ) = UInt64.ofNat i := by
  rw [UInt64.ofInt]
  congr 1
  omega

/-- The length of a part: the header with both numbers, and the piece. -/
def partLength (v : ℤ) (i : ℕ) (part : KnvNode) : ℕ :=
  pbEvalLength knvPkgTag .string 0
    (pbEvalLength knvPkgHdrTag .string 0 (v + numberSize knvPkgHdrCurrSplitIndex (UInt64.ofNat i)).toNat + part.evalSz.toNat)

/-- **A part is encoded**: the packet is ready for the next one, and the length is as expected. -/
theorem Cut.encodePart (H : Cut n part v t h q) (hn : n ≤ 2495) (hpart : ∀ i < n, 0 ≤ (part i).evalSz)
    (hcount : q.totalSplitCount ≠ 1) (j : ℤ) : ∃ t' h', Cut n part v t' h' (q.encodePart j).1 ∧
      (q.encodePart j).1.totalSplitCount = q.totalSplitCount ∧ (q.encodePart j).1.maxPkgSz = q.maxPkgSz ∧
      ∀ i < n, j = i → ∀ m, (q.encodePart j).2 = .ok m → m.length = partLength v i (part i) := by
  unfold KnvProtocol.encodePart
  rw [H.headed.isValid, H.headed.tree]
  simp only
  by_cases hbad : (q.totalSplitCount.toNat : ℤ) ≤ j
  · rw [if_pos hbad]
    exact ⟨t, h, H.congr H.headed.tree.symm rfl rfl rfl, rfl, rfl, fun _ _ _ m hm => nomatch hm⟩
  rw [if_neg hbad, if_neg hcount]
  unfold encodePiece
  have hsound : ∀ i < n, j = i → ∀ a, (t.findChildByTag (knvPkgPartTagBase + UInt32.ofInt j) {}).2 = some a →
      HasChild t a (partTag i) := by
    rintro i hi rfl a ha
    obtain ⟨hmeta, -⟩ := partTag_apart (Nat.lt_of_lt_of_le hi hn)
    obtain ⟨r, hr, hfound⟩ := H.headed.rooted.find hmeta {}
    rw [ofInt_partTag (by omega), hr] at ha
    exact hfound a ha
  have hfst : (t.findChildByTag (knvPkgPartTagBase + UInt32.ofInt j) {}).1 = t := by
    unfold findChildByTag
    rw [if_neg (by simp [H.headed.rooted.valid]), innerExpand_of_expanded H.headed.rooted.expanded]
  generalize t.findChildByTag (knvPkgPartTagBase + UInt32.ofInt j) {} = r at hsound hfst ⊢
  obtain ⟨t₀, r⟩ := r
  cases hfst
  cases r with
  | none => exact ⟨t₀, h, H.congr H.headed.tree.symm rfl rfl rfl, rfl, rfl, fun _ _ _ m hm => nomatch hm⟩
  | some a =>
    obtain ⟨hret, hnum, hms, hm, hsz⟩ := H.numbered.setIndex (UInt64.ofInt j) (t₀.place (.ofChild 0))
    have hstay := stays_setChild knvPkgHdrCurrSplitIndex .varint { i64 := UInt64.ofInt j } (t₀.place (.ofChild 0)) h
    obtain ⟨t₁, hhead, hrep, hon⟩ := (H.headed.congr (q := { q with tree := some t₀ }) H.headed.tree.symm rfl).onHeader
      (f := setChild knvPkgHdrCurrSplitIndex .varint { i64 := UInt64.ofInt j }) rfl hstay
    simp only [hon, hret]
    generalize setChild knvPkgHdrCurrSplitIndex .varint { i64 := UInt64.ofInt j } (t₀.place (.ofChild 0)) h = o at *
    have hpend : pending { q with tree := some t₁ } o.node = q.pending h := by
      rw [pending, pending, metaOffset_congr hms hm]
    have hcut : Cut n part v t₁ o.node { q with tree := some t₁ } :=
      ⟨hhead, hpend ▸ hnum, H.retcode, H.replaced_parts hn hrep hhead.tag⟩
    obtain ⟨t', h', hcut', hc, hs, hlen⟩ := hcut.encodeChild hn a
    refine ⟨t', h', hcut', hc, hs, fun i hi hj m hm => ?_⟩
    obtain ⟨b, hb, rfl, hval, hm⟩ := hlen m hm
    -- the child that was found is still there
    obtain ⟨c, hc, hself, hct⟩ := hsound i hi hj b.self rfl
    obtain ⟨-, hhdr, -⟩ := partTag_apart (Nat.lt_of_lt_of_le hi hn)
    have hne : c.self ≠ h.self := fun heq => by
      rw [List.inj_on_of_nodup_map H.headed.rooted.shape.nodup_children hc H.headed.mem heq, H.headed.tag] at hct
      exact hhdr hct.symm
    have hbc : b = c := List.inj_on_of_nodup_map hhead.rooted.shape.nodup_children hb (hrep.others c hc hne) hself.symm
    obtain ⟨a', ha'⟩ := (H.parts i hi).2 c hc hct
    have hbsz : b.evaluateSize.evalSz = (part i).evalSz := by
      have hev : b.evalSz = (part i).evalSz := by rw [hbc, ha']; rfl
      rw [evaluateSize_of_nonneg (hev ▸ hpart i hi), hev]
    have hvsz : h'.evalValSz = v + numberSize knvPkgHdrCurrSplitIndex (UInt64.ofNat i) := by
      rw [hval, hpend, hsz, hj, ofInt_index (by omega)]
      omega
    rw [hm, hcut'.numbered.evalSz, hbsz, hvsz]
    rfl

/-! ### Splitting -/

theorem count_noNeedSplit (b : Option KnvNode) (p : KnvProtocol) :
    (p.noNeedSplit b).1.totalSplitCount = p.totalSplitCount := by
  unfold noNeedSplit
  split
  · rfl
  · rfl
  split
  · rfl
  simp only
  split
  · rfl
  split <;> rfl

/-- A header without a body is never too long for its own header. -/
theorem length_encodeMem_error (H : Headed t h p) (hret : p.retcode ≠ 0) {m : Bytes} (hm : p.encodeMem = .ok m) :
    m.length < hdrSz h := by
  have henc : p.encode = p.encodeHeader := by rw [encode, if_pos hret]
  have hout : p.encodeHeader = .ok m := by
    unfold encodeMem at hm
    rw [henc, beq_false_of_ne hret] at hm
    cases hh : p.encodeHeader with
    | error e =>
      rw [hh] at hm
      cases hm
    | ok out =>
      rw [hh] at hm
      simp only [alloc] at hm
      split at hm
      · cases hm
      · exact hm
  have hpack : pack h none = .ok m := by
    have hopt := pack_none H.isValid H.headerNode
    rw [hout] at hopt
    cases hp : pack h none with
    | error e => rw [hp] at hopt; cases hopt
    | ok out => rw [hp] at hopt; cases hopt; rfl
  have hlen := length_pack hpack
  have hvint := length_pbVint_le (UInt64.ofNat h.evaluateSize.evalSz.toNat)
  have htag : pbEvalTagLength .string knvPkgTag = 3 := by decide
  simp only [bodySize, Nat.add_zero, pbEvalLength, htag, pbEvalVintLength_eq] at hlen
  rw [hdrSz]
  omega

/-- What `Split` works with: the packet `r` that has been encoded as `m`, its header `g`, and the header `c` with an
empty reply. -/
structure Splitting (b : Option KnvNode) (p r : KnvProtocol) (m : Bytes) (g c : KnvNode) : Prop where
  encoded : p.unsplit.encodeToSplit b = (r, .ok m)
  measured : r.headerNode = some g
  replied : (p.unsplit.setReply 0 []).1.headerNode = some c
  long : r.getMaxPkgSize < m.length
  room : hdrSz g < r.getMaxPkgSize

/-- Nothing is encoded after a failure to clear the reply. -/
theorem encodeWithBodyMem_error {b : KnvNode} (hz : (p.setReply 0 []).2 ≠ 0) :
    ∃ e, (p.encodeWithBodyMem b).2 = .error e := by
  unfold encodeWithBodyMem encodeWithBody encodeWith
  generalize p.setReply 0 [] = s at hz ⊢
  obtain ⟨s, z⟩ := s
  split
  next heq =>
    split at heq
    · next heq' => exact absurd (Prod.mk.inj heq').2 hz
    · cases heq
      exact ⟨_, rfl⟩

/-- To encode a packet changes nothing but its reply. -/
theorem fst_encodeWithBodyMem (b : KnvNode) (p : KnvProtocol) :
    ∃ e, (p.encodeWithBodyMem b).1 = { (p.setReply 0 []).1 with errmsg := e } := by
  unfold encodeWithBodyMem encodeWithBody encodeWith
  generalize p.setReply 0 [] = s
  obtain ⟨s, z⟩ := s
  split
  next heq =>
    split at heq
    · next heq' =>
      cases heq'
      split at heq
      · cases heq
        exact ⟨_, rfl⟩
      · split at heq <;> cases heq <;> exact ⟨_, rfl⟩
    · next heq' =>
      cases heq'
      cases heq
      exact ⟨_, rfl⟩

theorem Headed.count_encodeToSplit (H : Headed t h p) (htidy : Tidy h) (hexp : h.expanded = true) (b : Option KnvNode) :
    (p.encodeToSplit b).1.totalSplitCount = p.totalSplitCount := by
  cases b with
  | none => rfl
  | some b =>
    obtain ⟨t', h', hturn, -⟩ := H.setReply htidy hexp
    obtain ⟨e, he⟩ := fst_encodeWithBodyMem b p
    exact (congrArg (·.totalSplitCount) he).trans hturn.count

/-- The packet that has been encoded. -/
theorem Headed.encodeToSplit (H : Headed t h p) (htidy : Tidy h) (hexp : h.expanded = true) {b : Option KnvNode}
    {r : KnvProtocol} {m : Bytes} (henc : p.encodeToSplit b = (r, .ok m))
    (hlong : ∀ g, r.headerNode = some g → hdrSz g < m.length) : ∃ t' g c, Turned t h p t' g r ∧ r.retcode = 0 ∧
      (p.setReply 0 []).1.headerNode = some c ∧ c.evalValSz = g.evalValSz + r.pending g := by
  obtain ⟨t', h', hturn, hret, hsame⟩ := H.setReply htidy hexp
  cases b with
  | none =>
    obtain ⟨rfl, hm⟩ := Prod.mk.inj henc
    have hcode : p.retcode = 0 := by
      by_contra hne
      exact Nat.lt_asymm (length_encodeMem_error H hne hm) (hlong h H.headerNode)
    exact ⟨t, h, h', .refl H htidy, hcode, hturn.headed.headerNode, (hsame hcode).2⟩
  | some b =>
    have henc' := encodeWithBodyMem_error (p := p) (b := b)
    unfold KnvProtocol.encodeToSplit at henc
    unfold encodeWithBodyMem encodeWithBody encodeWith at henc henc'
    generalize p.setReply 0 [] = s at hturn hret henc henc' ⊢
    obtain ⟨s, z⟩ := s
    by_cases hz : z = 0
    · subst hz
      simp only [hturn.headed.headerNode] at henc
      have hrs : r = s := by
        cases hp : pack h' (some b) with
        | error e => simp [hp, alloc] at henc
        | ok out =>
          simp only [hp, Prod.mk.injEq] at henc
          exact henc.1.symm
      subst hrs
      refine ⟨t', h', h', hturn, (hret rfl).1, hturn.headed.headerNode, ?_⟩
      rw [pending, if_pos (hret rfl).2, Int.add_zero]
    · obtain ⟨e, he⟩ := henc' hz
      cases (congrArg Prod.snd henc).symm.trans he

/-- **`Split` that returns 0 and cuts the packet** leaves it as `EncodePart` expects it. -/
theorem Headed.split (H : Headed t h p) (htidy : Tidy h) {b : Option KnvNode} (hfew : p.FewParts b) (hs : p.split b = (q, 0))
    (hcount : q.totalSplitCount ≠ 1) : ∃ r m g c t' h', Splitting b p r m g c ∧ 1 < r.nrPkgs g m ∧ r.nrPkgs g m ≤ 2495 ∧
      r.maxPkgSz = p.maxPkgSz ∧ q.maxPkgSz = p.maxPkgSz ∧ q.totalSplitCount = UInt8.ofNat (r.nrPkgs g m) ∧
      Cut (r.nrPkgs g m) (partNode (r.szPart g) (r.nrPkgs g m) m)
        (c.evalValSz + numberSize knvPkgHdrTotalSplitCount (UInt64.ofNat (r.nrPkgs g m))) t' h' q := by
  obtain ⟨t₁, h₁, H₁, -, htidy₁, hexp₁, hnone₁, heq₁⟩ := H.unsplit htidy
  have hcount₁ : p.unsplit.totalSplitCount = 1 := by rw [heq₁]
  have hsize₁ : p.unsplit.maxPkgSz = p.maxPkgSz := by rw [heq₁]
  have hkept : ∀ r : KnvProtocol, r.totalSplitCount = 1 → r.noNeedSplit b = (q, 0) → False := by
    intro r hr hno
    have hq := count_noNeedSplit b r
    rw [hno] at hq
    exact hcount (hq.trans hr)
  unfold KnvProtocol.FewParts at hfew
  unfold KnvProtocol.split at hs
  rw [H.isValid] at hs
  simp only [Bool.not_true, Bool.false_eq_true, if_false] at hs
  unfold splitSized at hs
  generalize hp₁ : p.unsplit = p₁ at *
  by_cases hmust : p₁.mustSplit b = true
  swap
  · rw [if_pos (by simp [hmust])] at hs
    exact (hkept p₁ hcount₁ hs).elim
  rw [if_neg (by simp [hmust])] at hs
  cases henc : p₁.encodeToSplit b with
  | mk r res =>
  rw [henc] at hs
  cases res with
  | error e => exact absurd (show (-5 : ℤ) = 0 from (Prod.mk.inj hs).2) (by decide)
  | ok m =>
  have hcountr : r.totalSplitCount = 1 := by
    have hc := H₁.count_encodeToSplit htidy₁ hexp₁ b
    rw [henc] at hc
    exact hc.trans hcount₁
  simp only at hs
  cases hg : r.headerNode with
  | none =>
    rw [hg] at hs
    exact absurd (show (-1 : ℤ) = 0 from (Prod.mk.inj hs).2) (by decide)
  | some g =>
  rw [hg] at hs
  simp only at hs
  unfold splitEncoded at hs
  simp only at hs
  by_cases hlong : m.length ≤ r.getMaxPkgSize
  · rw [if_pos hlong] at hs
    exact (hkept r hcountr hs).elim
  rw [if_neg hlong] at hs
  have hlong' := Nat.lt_of_not_le hlong
  by_cases hroom : r.getMaxPkgSize ≤ hdrSz g
  · rw [if_pos hroom] at hs
    exact absurd (show (-6 : ℤ) = 0 from (Prod.mk.inj hs).2) (by decide)
  rw [if_neg hroom] at hs
  have hroom' := Nat.lt_of_not_le hroom
  by_cases hone : r.nrPkgs g m ≤ 1
  · rw [if_pos hone] at hs
    exact (hkept r hcountr hs).elim
  rw [if_neg hone] at hs
  have hn : r.nrPkgs g m ≤ 2495 := hfew hmust r m g henc hg hlong'
  obtain ⟨t₂, g', c, hturn, hret, hc, hcsz⟩ := H₁.encodeToSplit htidy₁ hexp₁ henc fun g' hg' => by
    rw [hg] at hg'
    cases hg'
    exact Nat.lt_trans hroom' hlong'
  obtain rfl : g' = g := Option.some.inj (hturn.headed.headerNode.symm.trans hg)
  -- the number of the parts
  have H₂ : Headed t₂ g' { r with totalSplitCount := UInt8.ofNat (r.nrPkgs g' m) } := hturn.headed.congr rfl rfl
  obtain ⟨t₃, H₃, -, hon⟩ := H₂.onHeader
    (f := setChild knvPkgHdrTotalSplitCount .varint { i64 := UInt64.ofNat (r.nrPkgs g' m) }) rfl (stays_setChild ..)
  rw [hon] at hs
  have hnone₂ : ∀ x ∈ g'.childlist, x.tag ≠ knvPkgHdrTotalSplitCount ∧ x.tag ≠ knvPkgHdrCurrSplitIndex :=
    hturn.beside.childlist ▸ hnone₁
  have hset := @numbered_setCount g' hturn.tidy hturn.headed.tag (hturn.beside.expanded.trans hexp₁) hnone₂
    (UInt64.ofNat (r.nrPkgs g' m)) (t₂.place (.ofChild 0))
  generalize setChild knvPkgHdrTotalSplitCount .varint { i64 := UInt64.ofNat (r.nrPkgs g' m) }
    (t₂.place (.ofChild 0)) g' = o at *
  cases hr : o.ret with
  | error e =>
    rw [hr] at hs
    exact absurd (show (-7 : ℤ) = 0 from (Prod.mk.inj hs).2) (by decide)
  | ok x =>
  rw [hr] at hs
  obtain ⟨hnum, hms, hm⟩ := hset hr
  obtain ⟨t', H', hq, hparts⟩ := H₃.putParts (fun i hi => Nat.lt_of_lt_of_le (List.mem_range.mp hi) hn) hs
  refine ⟨r, m, g', c, t', o.node,
    ⟨hp₁ ▸ henc, hg, hp₁ ▸ hc, hlong', hroom'⟩, by omega, hn, hturn.size.trans hsize₁, ?_, by rw [hq],
    H', ?_, by rw [hq]; exact hret, fun i hi => hparts i (Nat.lt_of_lt_of_le hi hn) (.inl (List.mem_range.mpr hi))⟩
  · rw [hq]
    exact hturn.size.trans hsize₁
  · have hpend : q.pending o.node = r.pending g' := by
      rw [hq, pending, pending, metaOffset_congr hms hm]
    have hv : c.evalValSz + numberSize knvPkgHdrTotalSplitCount (UInt64.ofNat (r.nrPkgs g' m)) - q.pending o.node =
        g'.evalValSz + numberSize knvPkgHdrTotalSplitCount (UInt64.ofNat (r.nrPkgs g' m)) := by
      rw [hpend, hcsz]
      omega
    exact hv ▸ hnum

/-! ### What is reserved -/

/-- The length of the header of part `i` of `n`: `c` is the header with an empty reply. -/
def hdrLength (c : KnvNode) (n i : ℕ) : ℕ := pbEvalLength knvPkgHdrTag .string 0
  (c.evalValSz + numberSize knvPkgHdrTotalSplitCount (UInt64.ofNat n) +
    numberSize knvPkgHdrCurrSplitIndex (UInt64.ofNat i)).toNat

/-- What the header `g` grows by, beyond the two numbers: its own length may take one byte more. -/
def growth (g c : KnvNode) (n i : ℕ) : ℤ :=
  hdrLength c n i - g.evaluateSize.evalSz.toNat - numberSize knvPkgHdrTotalSplitCount (UInt64.ofNat n) -
    numberSize knvPkgHdrCurrSplitIndex (UInt64.ofNat i)

/-- A packet with its header, as all functions leave it. -/
def WithHeader (p : KnvProtocol) : Prop := ∃ t h, Headed t h p ∧ Tidy h

theorem Holds.withHeader {ms cs : List PbField} {bodies : List KnvNode} (h : Holds ms cs bodies p) : WithHeader p := by
  obtain ⟨t, hdr, ht, hh, hhdr, hroot⟩ := h
  obtain ⟨hrooted, hmem⟩ := rooted_of_root hroot
  exact ⟨t, hdr, ⟨ht, hrooted, hmem, hh, hhdr.tag⟩, hhdr.asm.shaped.here, fun m hm => (hhdr.asm.written.here.metas m hm).2⟩

theorem WithHeader.congr (h : WithHeader p) (ht : q.tree = p.tree) (hh : q.header = p.header) : WithHeader q := by
  obtain ⟨t, g, H, htidy⟩ := h
  exact ⟨t, g, H.congr ht hh, htidy⟩

end KnvProtocol

end KnvProto
