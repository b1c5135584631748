import KnvProto.Packet.Belongs
import KnvProto.Packet.Reassembly
import KnvProto.Tree.Marked

/-!
# The packets that can be reached

`Reach` are the packets that are made by a constructor and changed by calls. Every call that
meets its condition (`Proper`) keeps `header` and `body` in the tree, so they are there in
every packet that is reached so (`Reach.whole`).

That is what makes a domain that `AddDomain` puts into the current body a part of the next
encoding: it is a child of a body that is a child of the tree, and all three are written again
(`Adds.writtenIn`).
-/

namespace KnvProto

open PathEdit KnvNode

/-! ### What is written of a child -/

namespace KnvNode

variable {n c : KnvNode}

/-- What is written of one of several nodes lies in what is written of all. -/
theorem serializeAll_of_mem {ret : ℤ} {len : ℕ} : ∀ {l : List KnvNode} {out out' : Bytes},
    serializeAll ret false l len out = .ok out' → out <+: out' ∧
      ∀ c ∈ l, ∃ len' bs, c.serialize len' true = .ok bs ∧ bs <:+: out' := by
  intro l
  induction l with
  | nil =>
    intro out out' h
    rw [serializeAll_nil] at h
    cases h
    exact ⟨List.prefix_refl _, fun c hc => absurd hc List.not_mem_nil⟩
  | cons x l ih =>
    intro out out' h
    rw [serializeAll_cons, Bool.false_and, if_neg Bool.false_ne_true] at h
    split at h
    · cases h
    next bs hbs =>
    obtain ⟨hpre, hall⟩ := ih h
    refine ⟨(List.prefix_append _ _).trans hpre, fun c hc => ?_⟩
    rcases List.mem_cons.mp hc with rfl | hc
    · exact ⟨_, bs, hbs, (List.suffix_append out bs).isInfix.trans hpre.isInfix⟩
    · exact hall c hc

/-- A dirty node with a child is written again. -/
theorem again_of_dirty (ht : n.type = .string) (he : n.expanded = true) (hd : n.subnodeDirty = true) (hc : c ∈ n.childlist) :
    (n.isFolded || n.isClean) = false := by
  have hne : n.childlist.isEmpty = false := by
    rw [List.isEmpty_eq_false_iff]
    exact List.ne_nil_of_mem hc
  simp [isFolded, isClean, ht, he, hd, hne]

/-- **What is written of a child** lies in what is written of a node that is written again. -/
theorem serialize_of_mem {len : ℕ} {out : Bytes} (hf : (n.isFolded || n.isClean) = false) (hc : c ∈ n.childlist)
    (h : n.serialize len true = .ok out) : ∃ len' bs, c.serialize len' true = .ok bs ∧ bs <:+: out := by
  rw [serialize_again (valid_of_serialize h) hf] at h
  split at h
  · cases h
  split at h
  · cases h
  split at h
  · cases h
  next out' hout =>
  simp only [if_true, ne_eq, ite_not] at h
  split at h
  · cases h
    exact (serializeAll_of_mem hout).2 c hc
  · cases h

/-! ### What an insertion adds -/

/-- A child as it is linked: the one given, or a copy of it, at some address. -/
def Linked (child : KnvNode) (takeOwnership : Bool) (d : KnvNode) : Prop :=
  ∃ c a, child.toLink takeOwnership = .ok c ∧ (d = c.at' a ∨ d = c.evaluateSize.at' a)

/-- A function that has put a child into a node, and told the parent. -/
structure Adds (child : KnvNode) (takeOwnership : Bool) (o : Out) : Prop where
  type : o.node.type = .string
  expanded : o.node.expanded = true
  dirty : o.node.subnodeDirty = true
  told : ∃ s e, Ev.update s e true ∈ o.msgs
  child : ∃ d ∈ o.node.childlist, Linked child takeOwnership d

end KnvNode

namespace KnvProtocol

variable {p : KnvProtocol} {b : KnvNode} {s : Bytes}

/-! ### Domains of the current body -/

/-- What `d` is written as lies in what `b` is written as, and that in `s`. -/
def WrittenIn (d b : KnvNode) (s : Bytes) : Prop :=
  ∃ len len' bs bs', d.serialize len true = .ok bs ∧ b.serialize len' true = .ok bs' ∧ bs <:+: bs' ∧ bs' <:+: s

/-- The current body of a packet is a child of its tree, and what is run on it is run on the child. -/
theorem onBody_eq (hw : Whole p) (hb : p.getBody = some b) (f : Place → KnvNode → Out)
    (k : KnvProtocol → Except KnvErr ℕ → KnvProtocol × ℤ) : ∃ t i o, p.tree = some t ∧ Rooted t ∧ t.childlist[i]? = some b ∧
      p.body = some (.child b.self) ∧ b.tag = knvPkgBdyTag ∧ o = f (t.place (.ofChild i)) b ∧
      p.onBody f k = k { p with tree := some ((t.setSlot (.ofChild i) o.node).handleAll o.node.self o.msgs).1 } o.ret := by
  have hget := hb
  unfold getBody at hb
  split at hb
  swap
  · cases hb
  obtain ⟨hnode, -⟩ := Option.filter_eq_some_iff.mp hb
  obtain ⟨q, hq, hnode⟩ := Option.bind_eq_some_iff.mp hnode
  cases ht : p.tree with
  | none => simp_all [isValid]
  | some t =>
    obtain ⟨a, rfl, hbdy⟩ := (hw t ht).body q hq
    simp only [ht, Option.bind_some] at hnode
    have hself : b.self = a := by
      have hat := List.find?_some (show List.find? _ _ = some b from hnode)
      exact of_decide_eq_true hat
    have hmem := List.mem_of_find?_eq_some hnode
    have htag := (hw t ht).rooted.tag_unique ⟨b, hmem, hself, rfl⟩ hbdy
    obtain ⟨i, hi⟩ := List.getElem?_of_mem hmem
    refine ⟨t, i, _, rfl, (hw t ht).rooted, hi, by rw [hq, hself], htag, rfl, ?_⟩
    have hchild : t.onChild b.self f {} = _ := (hw t ht).rooted.shape.onChild hi rfl
    unfold onBody
    rw [hget, hq]
    simp only [ht, Option.bind_some, ← hself, hchild]

/-- The packet has a current body, a domain is a child of it, and is written with it and with the packet. -/
def DomainWritten (domain : KnvNode) (takeOwnership : Bool) (s : Bytes) (p : KnvProtocol) : Prop :=
  ∃ b d, p.getBody = some b ∧ d ∈ b.childlist ∧ Linked domain takeOwnership d ∧ WrittenIn d b s

/-- **A child that is added to the current body is written** with the packet. -/
theorem Adds.written {child : KnvNode} {own : Bool} (hw : Whole p) {f : Place → KnvNode → Out}
    {k : KnvProtocol → Except KnvErr ℕ → KnvProtocol × ℤ} (hstay : ∀ pl n, Stays n (f pl n).node)
    (hk : ∀ q r, Steady q (k q r).1 ∧ (k q r).1.tree = q.tree)
    (hf : ∀ b, p.getBody = some b → b.tag = knvPkgBdyTag → ∀ pl q, (k q (f pl b).ret).2 = 0 → Adds child own (f pl b))
    (hzero : (p.onBody f k).2 = 0) (hret : (p.onBody f k).1.retcode = 0) (hs : (p.onBody f k).1.encode = .ok s) :
    DomainWritten child own s (p.onBody f k).1 := by
  have hsome : ∃ b, p.getBody = some b := by
    cases hb : p.getBody with
    | some b => exact ⟨b, rfl⟩
    | none =>
      rw [onBody, hb] at hzero
      cases hzero
  obtain ⟨b, hb⟩ := hsome
  obtain ⟨t, i, o, ht, hroot, hi, hbody, htag, ho, heq⟩ := onBody_eq hw hb f k
  have hadds : Adds child own o := by
    rw [heq, ho] at hzero
    exact ho ▸ hf b hb htag _ _ hzero
  have hstays : Stays b o.node := ho ▸ hstay _ b
  have hchild : t.onChild b.self f {} = _ := hroot.shape.onChild hi ho.symm
  have hroot' := (Keeps.onChild (P := fun _ => True) hroot (fun pl n => (hstay pl n).self) (fun _ pl n => (hstay pl n).tag)
    hchild).rooted
  have htouch := touched_handleAll o.node.self o.msgs (t.setSlot (.ofChild i) o.node)
  have hdirty : ((t.setSlot (.ofChild i) o.node).handleAll o.node.self o.msgs).1.subnodeDirty = true :=
    marked_handleAll hadds.told
  generalize ((t.setSlot (.ofChild i) o.node).handleAll o.node.self o.msgs).1 = t' at *
  rw [heq] at hret hs ⊢
  obtain ⟨hsteady, htree⟩ := hk { p with tree := some t' } o.ret
  generalize k { p with tree := some t' } o.ret = r at hret hs hsteady htree ⊢
  obtain ⟨hlt, rfl⟩ := List.getElem?_eq_some_iff.mp hi
  have hmem : o.node ∈ t'.childlist := by
    rw [htouch.childlist]
    exact List.mem_set hlt _
  have htype : t'.type = .string := hroot'.type (List.ne_nil_of_mem hmem)
  have hvalid : r.1.isValid = true := by
    rw [KnvProtocol.isValid, htree]
    exact beq_iff_eq.mpr hroot'.tag
  have hget : r.1.getBody = some o.node := by
    have hnode : r.1.bodyNode = some o.node := by
      rw [bodyNode, hsteady.body, hbody, Option.bind_some, htree, ← hstays.self]
      exact find?_self hroot'.shape.nodup_children hmem
    have hbv : o.node.isValid = true := by
      unfold getBody at hb
      split at hb
      · have hv := (Option.filter_eq_some_iff.mp hb).2
        rw [KnvNode.isValid, hstays.tag]
        exact hv
      · cases hb
    rw [getBody, if_pos hvalid, hnode, Option.filter_some, if_pos hbv]
  rw [encode, if_neg (not_not_intro hret), encodeAll, htree] at hs
  simp only at hs
  rw [if_neg (not_not_intro hroot'.tag)] at hs
  split at hs
  · cases hs
  next out hout =>
  cases hs
  obtain ⟨len, bs', hbs', hin'⟩ := serialize_of_mem (again_of_dirty htype hroot'.expanded hdirty hmem) hmem hout
  obtain ⟨d, hd, hlinked⟩ := hadds.child
  obtain ⟨len', bs, hbs, hin⟩ := serialize_of_mem (again_of_dirty hadds.type hadds.expanded hadds.dirty hd) hd hbs'
  exact ⟨o.node, d, hget, hd, hlinked, len', len, bs, bs', hbs, hbs', hin, hin'⟩

/-- The calls that act on a packet. -/
inductive PacketCall where
  /-- `AddBody`. -/
  | addBody (b : KnvNode) (takeOwnership : Bool)
  /-- `RemoveAllBodies`. -/
  | removeAllBodies
  /-- `ReassignBody`. -/
  | reassignBody (newBody : Option KnvNode) (takeOwnership : Bool)
  /-- `GetFirstRequest`. -/
  | getFirstRequest
  /-- `GetNextRequest`. -/
  | getNextRequest
  /-- `assign`, of another packet. -/
  | assign (prot : KnvProtocol) (ownBuf : Bool)
  /-- `assign`, of a buffer. -/
  | assignBuf (buf : Bytes)
  /-- `AddPartial`. -/
  | addPartial (part : KnvProtocol) (ownBuf : Bool)
  /-- `Split`. -/
  | split (b : Option KnvNode)
  /-- `EncodePart`. -/
  | encodePart (index : ℤ)
  /-- `AddDomain`, of a domain. -/
  | addDomain (domain : KnvNode) (takeOwnership : Bool)
  /-- `AddDomain`, of a tag. -/
  | addDomainId (iDomainId : UInt32)

/-- What a call makes of a packet. -/
def PacketCall.run : PacketCall → KnvProtocol → KnvProtocol
  | addBody b own, p => (p.addBody b own).1
  | removeAllBodies, p => p.removeAllBodies.1
  | reassignBody newBody own, p => (p.reassignBody newBody own).1
  | getFirstRequest, p => p.getFirstRequest.1
  | getNextRequest, p => p.getNextRequest.1
  | assign prot ownBuf, p => (p.assign prot ownBuf).1
  | assignBuf buf, p => (p.assignBuf buf).1
  | addPartial part ownBuf, p => (p.addPartial part ownBuf).1
  | split b, p => (p.split b).1
  | encodePart index, p => (p.encodePart index).1
  | addDomain domain own, p => (p.addDomain domain own).1
  | addDomainId iDomainId, p => (p.addDomainId iDomainId).1

/-- The other packet of a call. -/
def PacketCall.other : PacketCall → Option KnvProtocol
  | assign prot _ => some prot
  | addPartial part _ => some part
  | _ => none

/-- The calls that do not lose `header` or `body`: `AddBody` has nothing to copy, and `Split` does not need the tag of the
header for a part. -/
def PacketCall.Proper : PacketCall → KnvProtocol → Prop
  | addBody b own, p => p.NoCopy b own
  | reassignBody newBody own, p => ∀ b, newBody = some b → p.NoCopy b own
  | split b, p => p.FewParts b
  | _, _ => True

/-- The packets that are reached by calls that meet a condition. The other packet of a call has been reached, too. -/
inductive Reach (C : PacketCall → KnvProtocol → Prop) : KnvProtocol → Prop
  /-- `KnvProtocol()`. -/
  | empty : Reach C {}
  /-- `KnvProtocol(dwCmd, dwSubCmd, dwSeq)`. -/
  | create (dwCmd dwSubCmd dwSeq : UInt32) : Reach C (create dwCmd dwSubCmd dwSeq)
  /-- `KnvProtocol(buf)`. -/
  | decode (buf : Bytes) : Reach C (decode buf)
  /-- A call. -/
  | call {p : KnvProtocol} (c : PacketCall) : Reach C p → (∀ q, c.other = some q → Reach C q) → C c p → Reach C (c.run p)

/-- A call that meets its condition keeps `header` and `body` in the tree. -/
theorem Whole.run (hw : Whole p) {c : PacketCall} (hother : ∀ q, c.other = some q → Whole q) (hc : c.Proper p) :
    Whole (c.run p) := by
  cases c with
  | addBody b own => exact whole_addBody hw hc
  | removeAllBodies => exact whole_removeAllBodies hw
  | reassignBody newBody own => exact whole_reassignBody hw hc
  | getFirstRequest => exact whole_getFirstRequest hw
  | getNextRequest => exact whole_getNextRequest hw
  | assign prot ownBuf => exact whole_assign (hother prot rfl) ownBuf
  | assignBuf buf => exact whole_assignBuf hw buf
  | addPartial part ownBuf => exact whole_addPartial hw (hother part rfl) ownBuf
  | split b => exact (steady_split hc).whole hw
  | encodePart index => exact (steady_encodePart hw index).whole hw
  | addDomain domain own =>
    refine whole_onBody hw (fun _ _ => stays_putDomain ..) fun q r => ?_
    cases r with
    | error e => exact steady_fail ..
    | ok _ => exact .refl q
  | addDomainId iDomainId =>
    refine whole_onBody hw (fun _ _ => stays_newDomain ..) fun q r => ?_
    cases r with
    | error e => exact steady_fail ..
    | ok _ => exact .refl q

/-- **Every packet that is reached has its header and its body in the tree.** -/
theorem Reach.whole (h : Reach PacketCall.Proper p) : Whole p := by
  induction h with
  | empty => exact whole_of_none rfl
  | create dwCmd dwSubCmd dwSeq => exact whole_create dwCmd dwSubCmd dwSeq
  | decode buf => exact (whole_decode buf).1
  | call c _ _ hc ih ihother => exact ih.run ihother hc

/-- `header` is a child of `tree` with the tag of a header, and `body` is `NULL` or a child with the tag of a body. -/
def InTree (p : KnvProtocol) : Prop :=
  p.isValid = true → ∃ t, p.tree = some t ∧
    (∃ h ∈ t.childlist, p.header = some h.self ∧ p.headerNode = some h ∧ h.tag = knvPkgHdrTag) ∧
    ∀ q, p.body = some q → ∃ b ∈ t.childlist, q = .child b.self ∧ p.bodyNode = some b ∧ b.tag = knvPkgBdyTag

end KnvProtocol

end KnvProto
