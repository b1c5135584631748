import KnvProto.Packet.Rooted
import KnvProto.Packet.Split

/-!
# What the pointers of a packet point to

`RemoveAllBodies`, `ReassignBody` and `AddDomain`, and what all functions of a packet do to
`header` and `body`.

A function that changes neither pointer and leaves the two children where they are is
`Steady`; the few others make them point to a child that has just been found or inserted.
So they point into the tree in every state that can be reached (`Reach.whole`), except that

* `AddBody` of a body that is to be copied lets `body` point to the original,
* the decoder of the other format does not look for the first of many bodies, and
* `Split` into 2496 parts and more takes the header out, whose tag is that of a part then.

## The model

What a user does with a tree that `assign` or `AddPartial` shares without `own_buf`, other
than through the packet that took it over, is left out.
-/

namespace KnvProto

open PathEdit KnvNode

namespace KnvProtocol

/-! ### Bodies and domains -/

/-- `RemoveAllBodies`. -/
def removeAllBodies (p : KnvProtocol) : KnvProtocol × ℤ :=
  match p.isValid, p.tree with
  | true, some t =>
    let o := t.removeChildrenByTag knvPkgBdyTag {}
    match o.ret with
    | .error e => { p with tree := some o.node }.fail (-2) ("Failed to remove body tag: " ++ e.errmsg)
    | .ok _ => ({ p with tree := some o.node, body := none }, 0)
  | _, _ => p.fail (-1) "Protocol not initialized"

/-- `ReassignBody(new_body, take_ownership)`. -/
def reassignBody (newBody : Option KnvNode) (takeOwnership : Bool) (p : KnvProtocol) : KnvProtocol × ℤ :=
  match p.removeAllBodies with
  | (p, 0) =>
    match newBody with
    | none => (p, 0)
    | some b =>
      match p.addBody b takeOwnership with
      | (p, 0) => (p, 0)
      | (p, _) => (p, -2)
  | (p, _) => (p, -1)

/-- Run a function on the current body, and go on with its result. -/
def onBody (f : Place → KnvNode → Out) (k : KnvProtocol → Except KnvErr ℕ → KnvProtocol × ℤ) (p : KnvProtocol) :
    KnvProtocol × ℤ :=
  match p.getBody, p.body with
  | some _, some (.child a) =>
    match p.tree.bind fun t => t.onChild a f {} with
    | none => p.fail (-1) "Protocol not initialized"
    | some o => k { p with tree := some o.node } o.ret
  | some b, some (.other _) => k { p with body := some (.other (f {} b).node) } (f {} b).ret
  | _, _ => p.fail (-1) "Protocol not initialized"

/-- What `AddDomain` of a domain does to the body. -/
def putDomain (domain : KnvNode) (takeOwnership : Bool) (pl : Place) (b : KnvNode) : Out :=
  match b.findChild domain.tag [] pl with
  | (b, some _) => b.fail (-2) "There is already a domain with the same ID, please remove it first"
  | (b, none) =>
    let o := insertChild domain takeOwnership true pl b
    { o with ret := o.ret.mapError fun (e : KnvErr) => ⟨-3, e.errmsg⟩ }

/-- `AddDomain(domain, take_ownership)`. -/
def addDomain (domain : KnvNode) (takeOwnership : Bool) (p : KnvProtocol) : KnvProtocol × ℤ :=
  p.onBody (putDomain domain takeOwnership) fun p r =>
    match r with
    | .error e => p.fail e.ret e.errmsg
    | .ok _ => (p, 0)

/-- What `AddDomain` of a tag does to the body. -/
def newDomain (iDomainId : UInt32) (pl : Place) (b : KnvNode) : Out :=
  match b.findChild iDomainId [] pl with
  | (b, some _) => ⟨b, [], .ok 0⟩
  | (b, none) => b.insertNew (KnvNode.new iDomainId .string .string none none) pl

/-- `AddDomain(iDomainId)`. A domain that is returned is 0 here, and `NULL` is -1. -/
def addDomainId (iDomainId : UInt32) (p : KnvProtocol) : KnvProtocol × ℤ :=
  p.onBody (newDomain iDomainId) fun p r =>
    match r with
    | .error e => p.fail (-1) e.errmsg
    | .ok _ => (p, 0)

/-! ### Pointers into the tree -/

/-- An address that the packet holds. -/
def PointsTo (p : KnvProtocol) (a : ℕ) : Prop := p.header = some a ∨ p.body = some (.child a)

/-- `header` and `body` belong to a tree. -/
structure Belongs (t : KnvNode) (p : KnvProtocol) : Prop where
  rooted : Rooted t
  header : ∃ a, p.header = some a ∧ HasChild t a knvPkgHdrTag
  body : ∀ b, p.body = some b → ∃ a, b = .child a ∧ HasChild t a knvPkgBdyTag

/-- `header` and `body` belong to the tree of the packet, if it has one. -/
def Whole (p : KnvProtocol) : Prop := ∀ t, p.tree = some t → Belongs t p

/-- The pointers stay, and so does what they point to. -/
structure Steady (p q : KnvProtocol) : Prop where
  header : q.header = p.header
  body : q.body = p.body
  whole : Whole p → Whole q

variable {p q : KnvProtocol} {t t' : KnvNode} {a : ℕ} {tag : UInt32}

theorem Steady.refl (p : KnvProtocol) : Steady p p := ⟨rfl, rfl, id⟩

theorem Steady.trans {r : KnvProtocol} (h : Steady p q) (h' : Steady q r) : Steady p r :=
  ⟨h'.header.trans h.header, h'.body.trans h.body, fun hp => h'.whole (h.whole hp)⟩

theorem whole_of_none (ht : p.tree = none) : Whole p := fun _ h => nomatch ht.symm.trans h

/-- Only the tree and the pointers matter. -/
theorem Whole.congr (h : Whole p) (ht : q.tree = p.tree) (hh : q.header = p.header) (hb : q.body = p.body) : Whole q := by
  intro t hp'
  have hbel := h t (ht.symm.trans hp')
  exact ⟨hbel.rooted, hh ▸ hbel.header, hb ▸ hbel.body⟩

/-- The tree, `header` and `body` are as they were. -/
theorem steady_of_same (ht : q.tree = p.tree) (hh : q.header = p.header) (hb : q.body = p.body) : Steady p q :=
  ⟨hh, hb, fun h => h.congr ht hh hb⟩

theorem steady_fail (p : KnvProtocol) (ret : ℤ) (errmsg : String) : Steady p (p.fail ret errmsg).1 :=
  steady_of_same rfl rfl rfl

/-- The tree has been changed, but not where the packet points to. -/
theorem steady_of_keeps (ht : p.tree = some t) (hk : Belongs t p → Keeps p.PointsTo t t') (ht' : q.tree = some t')
    (hh : q.header = p.header) (hb : q.body = p.body) : Steady p q := by
  refine ⟨hh, hb, fun hp t'' ht'' => ?_⟩
  cases ht'.symm.trans ht''
  have hbel := hp t ht
  have hkeep := hk hbel
  obtain ⟨a, ha, hchild⟩ := hbel.header
  refine ⟨hkeep.rooted, ⟨a, hh.trans ha, hkeep.child (.inl ha) hchild⟩, fun b hpb => ?_⟩
  obtain ⟨a', rfl, hchild'⟩ := hbel.body b (hb ▸ hpb)
  exact ⟨a', rfl, hkeep.child (.inr (hb ▸ hpb)) hchild'⟩

/-- The packet does not point to children with other tags. -/
theorem Belongs.not_pointsTo (h : Belongs t p) (hc : HasChild t a tag) (hh : tag ≠ knvPkgHdrTag) (hb : tag ≠ knvPkgBdyTag) :
    ¬p.PointsTo a := by
  rintro (ha | ha)
  · obtain ⟨a', ha', hchild⟩ := h.header
    cases ha.symm.trans ha'
    exact hh (h.rooted.tag_unique hc hchild)
  · obtain ⟨a', ha', hchild⟩ := h.body _ ha
    cases ha'
    exact hb (h.rooted.tag_unique hc hchild)

/-! ### Functions that leave the pointers alone -/

/-- A function that is run on a child. -/
theorem steady_onChild (ht : p.tree = some t) {f : Place → KnvNode → Out} {pl : Place} {o : Out}
    (hf : ∀ pl n, Stays n (f pl n).node) (ho : t.onChild a f pl = some o) (ht' : q.tree = some o.node)
    (hh : q.header = p.header) (hb : q.body = p.body) : Steady p q :=
  steady_of_keeps ht (fun h => .onChild h.rooted (fun pl n => (hf pl n).self) (fun _ pl n => (hf pl n).tag) ho) ht' hh hb

theorem steady_onHeader {f : Place → KnvNode → Out} {k : KnvProtocol → Except KnvErr ℕ → KnvProtocol × ℤ}
    (hf : ∀ pl n, Stays n (f pl n).node) (hk : ∀ q r, Steady q (k q r).1) : Steady p (p.onHeader f k).1 := by
  unfold onHeader
  split
  · exact steady_fail ..
  next o ho =>
  obtain ⟨t, ht, ho⟩ := Option.bind_eq_some_iff.mp ho
  obtain ⟨a, -, ho⟩ := Option.bind_eq_some_iff.mp ho
  exact (steady_onChild (q := { p with tree := some o.node }) ht hf ho rfl rfl rfl).trans (hk _ _)

theorem steady_insertChild (ht : p.tree = some t) (child : KnvNode) (own atTail : Bool) (pl : Place)
    (ht' : q.tree = some (insertChild child own atTail pl t).node) (hh : q.header = p.header) (hb : q.body = p.body) :
    Steady p q :=
  steady_of_keeps ht (fun h => .insertChild h.rooted ..) ht' hh hb

theorem steady_setHeaderIntField (ftag : UInt32) (v : UInt64) : Steady p (p.setHeaderIntField ftag v).1 := by
  unfold setHeaderIntField
  split
  · exact steady_fail ..
  refine steady_onHeader (fun pl n => stays_setField ..) fun q r => ?_
  cases r with
  | error e => exact steady_fail ..
  | ok _ =>
    simp only
    split
    · exact steady_of_same rfl rfl rfl
    split
    · exact steady_of_same rfl rfl rfl
    split
    · exact steady_of_same rfl rfl rfl
    split <;> exact steady_of_same rfl rfl rfl

theorem steady_setHeaderStringField (ftag : UInt32) (v : Bytes) : Steady p (p.setHeaderStringField ftag v).1 := by
  unfold setHeaderStringField
  split
  · exact steady_fail ..
  refine steady_onHeader (fun pl n => ?_) fun q r => ?_
  · split
    · exact stays_setField ..
    · exact stays_removeField ..
  · cases r with
    | error e => exact steady_fail ..
    | ok k =>
      cases k with
      | zero =>
        simp only
        split <;> exact steady_of_same rfl rfl rfl
      | succ k => exact steady_fail ..

theorem steady_setReply (ret : UInt32) (err : Bytes) : Steady p (p.setReply ret err).1 := by
  unfold setReply
  split
  · exact .refl p
  have hret : Steady p (if ret ≠ p.retcode then p.setRetCode ret else (p, 0)).1 := by
    split
    · exact steady_setHeaderIntField ..
    · exact .refl p
  generalize (if ret ≠ p.retcode then p.setRetCode ret else (p, 0)) = r at hret ⊢
  simp only
  split
  · exact hret.trans (steady_fail ..)
  have herr : Steady r.1 (if err ≠ r.1.retmsg then r.1.setRetErrorMsg err else (r.1, 0)).1 := by
    split
    · exact steady_setHeaderStringField ..
    · exact .refl r.1
  generalize (if err ≠ r.1.retmsg then r.1.setRetErrorMsg err else (r.1, 0)) = r' at herr ⊢
  split
  · exact (hret.trans herr).trans (steady_fail ..)
  · exact hret.trans herr

theorem steady_encodeWithBody (b : KnvNode) : Steady p (p.encodeWithBody b).1 := by
  have hset := steady_setReply (p := p) 0 []
  unfold encodeWithBody encodeWith
  generalize p.setReply 0 [] = r at hset ⊢
  obtain ⟨q, z⟩ := r
  split
  · next heq =>
    cases heq
    split
    · exact hset
    split
    · exact hset.trans (steady_of_same rfl rfl rfl)
    · exact hset
  · next heq =>
    cases heq
    exact hset

theorem steady_encodeWithBodyMem (b : KnvNode) : Steady p (encodeWithBodyMem b p).1 := steady_encodeWithBody b

theorem steady_encodeChild (a : ℕ) : Steady p (p.encodeChild a).1 := by
  unfold encodeChild
  split
  · exact steady_encodeWithBodyMem _
  · exact .refl p

/-- The pointers are not to a child whose tag is changed. -/
theorem steady_setChildTag (ha : ¬p.PointsTo a) (tag : UInt32) : Steady p (p.setChildTag a tag) := by
  unfold setChildTag
  split
  · next o ho =>
    obtain ⟨t, ht, ho⟩ := Option.bind_eq_some_iff.mp ho
    refine steady_of_keeps ht (fun h => .onChild h.rooted (fun pl n => ?_) (fun hp => absurd hp ha) ho) rfl rfl rfl
    exact setTag_rule (P := fun o => o.node.self = n.self) (fun _ => rfl) fun _ _ _ _ => rfl
  · exact .refl p

/-- The tags of the first parts are those of children, and neither that of the header nor that of a body. -/
theorem partTag_apart {i : ℕ} (h : i < 2495) :
    ucMaxMetaNum < partTag i ∧ partTag i ≠ knvPkgHdrTag ∧ partTag i ≠ knvPkgBdyTag := by
  have hi := toNat_partTag (show i < 2 ^ 31 by omega)
  refine ⟨UInt32.lt_iff_toNat_lt.mpr ?_, fun heq => ?_, fun heq => ?_⟩
  · rw [hi]
    exact Nat.lt_of_lt_of_le (by decide : _ < 0x1ee) (Nat.le_add_right ..)
  · rw [heq] at hi
    have : knvPkgHdrTag.toNat = 2989 := by decide
    omega
  · rw [heq] at hi
    have : knvPkgBdyTag.toNat = 3501 := by decide
    omega

theorem steady_noNeedSplit (b : Option KnvNode) : Steady p (p.noNeedSplit b).1 := by
  unfold noNeedSplit
  split
  · exact .refl p
  · exact steady_fail ..
  next b t ht =>
  split
  · exact steady_fail ..
  next c _ =>
  simp only
  split
  · exact steady_fail ..
  split
  · exact (steady_insertChild (q := { p with tree := some _ }) ht _ _ _ _ rfl rfl rfl).trans (steady_fail ..)
  · exact steady_insertChild ht _ _ _ _ rfl rfl rfl

/-- The parts are put into the tree, each after what has its tag is taken out. -/
theorem steady_putParts (szPart nrPkgs : ℕ) (m : Bytes) : ∀ (is : List ℕ) (p : KnvProtocol), (∀ i ∈ is, i < 2495) →
    Steady p (putParts szPart nrPkgs m is p).1 := by
  intro is
  induction is with
  | nil => exact fun p _ => .refl p
  | cons i is ih =>
    intro p hlt
    obtain ⟨-, hhdr, hbdy⟩ := partTag_apart (hlt i (List.mem_cons_self ..))
    unfold putParts
    split
    · exact steady_fail ..
    next t ht =>
    simp only
    split
    · exact steady_fail ..
    next part _ =>
    have hput : Steady p { p with
        tree := some (insertChild part true true {} (t.removeChildrenByTag (partTag i) {}).node).node } := by
      refine steady_of_keeps ht (fun h => ?_) rfl rfl rfl
      have hrem := Keeps.removeChildrenByTag (P := p.PointsTo) h.rooted
        (fun a ha hc => h.not_pointsTo hc hhdr hbdy ha) {}
      exact hrem.trans (.insertChild hrem.rooted ..)
    split
    · exact hput.trans (steady_fail ..)
    · exact hput.trans (ih _ fun j hj => hlt j (List.mem_cons_of_mem _ hj))

theorem steady_splitEncoded {b : Option KnvNode} {m : Bytes} {h : KnvNode}
    (hlt : p.getMaxPkgSize < m.length → p.nrPkgs h m ≤ 2495) : Steady p (p.splitEncoded b m h).1 := by
  unfold splitEncoded
  simp only
  split
  · exact steady_noNeedSplit b
  next hlen =>
  split
  · exact steady_fail ..
  split
  · exact steady_noNeedSplit b
  refine Steady.trans (q := { p with totalSplitCount := UInt8.ofNat (p.nrPkgs h m) }) (steady_of_same rfl rfl rfl)
    (steady_onHeader (fun pl n => stays_setChild ..) fun q r => ?_)
  cases r with
  | error e => exact steady_fail ..
  | ok _ =>
    refine steady_putParts _ _ _ _ q fun i hi => ?_
    exact Nat.lt_of_lt_of_le (List.mem_range.mp hi) (hlt (Nat.lt_of_not_le hlen))

theorem steady_encodeToSplit (b : Option KnvNode) : Steady p (p.encodeToSplit b).1 := by
  cases b with
  | none => exact .refl p
  | some b => exact steady_encodeWithBodyMem b

theorem steady_unsplit (p : KnvProtocol) : Steady p p.unsplit :=
  Steady.trans (q := { p with totalSplitCount := 1 }) (steady_of_same rfl rfl rfl)
    (steady_onHeader (fun _ _ => stays_removeChildrenByTag ..) fun _ _ =>
      steady_onHeader (fun _ _ => stays_removeChildrenByTag ..) fun q _ => .refl q)

/-- `Split` does not make so many parts that their tags reach that of the header. -/
def FewParts (b : Option KnvNode) (p : KnvProtocol) : Prop :=
  p.unsplit.mustSplit b = true → ∀ q m h, p.unsplit.encodeToSplit b = (q, .ok m) → q.headerNode = some h →
    q.getMaxPkgSize < m.length → q.nrPkgs h m ≤ 2495

theorem steady_split {b : Option KnvNode} (h : p.FewParts b) : Steady p (p.split b).1 := by
  unfold split
  split
  · exact steady_fail ..
  refine (steady_unsplit p).trans ?_
  unfold splitSized
  split
  · exact steady_noNeedSplit b
  next hmust =>
  have henc := steady_encodeToSplit (p := p.unsplit) b
  split
  · next heq =>
    rw [heq] at henc
    exact henc.trans (steady_fail ..)
  · next q m heq =>
    rw [heq] at henc
    split
    · exact henc.trans (steady_fail ..)
    next hdr hhdr =>
    exact henc.trans (steady_splitEncoded (h (by simpa using hmust) q m hdr heq hhdr))

/-! ### Encoding a part -/

/-- A lookup leaves the packet as it is, and finds a child that the packet does not point to. -/
theorem Whole.find (hw : Whole p) (ht : p.tree = some t) (hmeta : ucMaxMetaNum < tag) (hh : tag ≠ knvPkgHdrTag)
    (hb : tag ≠ knvPkgBdyTag) : ∃ r, t.findChildByTag tag {} = (t, r) ∧ ∀ a, r = some a → ¬p.PointsTo a := by
  obtain ⟨r, hr, hfound⟩ := (hw t ht).rooted.find hmeta {}
  exact ⟨r, hr, fun a ha => (hw t ht).not_pointsTo (hfound a ha) hh hb⟩

theorem steady_encodeWhole (hw : Whole p) (ht : p.tree = some t) : Steady p (p.encodeWhole t).1 := by
  obtain ⟨r, hr, hnot⟩ := hw.find ht (by decide : ucMaxMetaNum < knvPkgPartTagBase) (by decide) (by decide)
  have hsame : Steady p { p with tree := some t } := steady_of_same ht.symm rfl rfl
  unfold encodeWhole
  rw [hr]
  cases r with
  | none => exact hsame
  | some a =>
    have hset := hsame.trans (steady_setChildTag (p := { p with tree := some t }) (hnot a rfl) knvPkgBdyTag)
    have henc := hset.trans (steady_encodeChild a)
    refine henc.trans (steady_setChildTag ?_ _)
    rw [PointsTo, henc.header, henc.body]
    exact hnot a rfl

theorem steady_encodePiece (hw : Whole p) (ht : p.tree = some t) (index : ℤ) : Steady p (p.encodePiece index t).1 := by
  have hexp := (hw t ht).rooted
  have hsame : ∀ q : KnvProtocol, q.tree = some t → q.header = p.header → q.body = p.body → Steady p q := fun q hq hh hb =>
    steady_of_same (hq.trans ht.symm) hh hb
  unfold encodePiece
  have hfst : (t.findChildByTag (knvPkgPartTagBase + UInt32.ofInt index) {}).1 = t := by
    unfold findChildByTag
    rw [if_neg (by simp [hexp.valid]), innerExpand_of_expanded hexp.expanded]
  generalize t.findChildByTag (knvPkgPartTagBase + UInt32.ofInt index) {} = r at hfst ⊢
  obtain ⟨t', r⟩ := r
  cases hfst
  cases r with
  | none => exact hsame _ rfl rfl rfl
  | some a =>
    simp only
    generalize hk : KnvProtocol.onHeader (setChild knvPkgHdrCurrSplitIndex .varint { i64 := UInt64.ofInt index }) _
      { p with tree := some t' } = o
    have hset : Steady p o.1 := by
      refine hk ▸ (hsame { p with tree := some t' } rfl rfl rfl).trans
        (steady_onHeader (fun _ _ => stays_setChild ..) fun q r => ?_)
      cases r with
      | error e => exact steady_fail ..
      | ok _ => exact .refl q
    obtain ⟨q, z⟩ := o
    split
    · next heq =>
      cases heq
      exact hset.trans (steady_encodeChild a)
    · next heq =>
      cases heq
      exact hset

theorem steady_encodePart (hw : Whole p) (index : ℤ) : Steady p (p.encodePart index).1 := by
  unfold encodePart
  split
  · next t _ ht =>
    split
    · exact steady_of_same rfl rfl rfl
    split
    · exact steady_encodeWhole hw ht
    · exact steady_encodePiece hw ht index
  · exact steady_of_same rfl rfl rfl

/-! ### Functions that find a body, insert one or take all out -/

/-- `AddBody` copies nothing: it takes the body over, or refuses it. -/
def NoCopy (b : KnvNode) (takeOwnership : Bool) (p : KnvProtocol) : Prop :=
  takeOwnership = true ∨ p.isValid = false ∨ b.tag ≠ knvPkgBdyTag ∨ (b.toLink false).toOption = none

/-- What a child that is linked looks like. -/
theorem tag_linked {c d : KnvNode} (h : d = c ∨ d = c.evaluateSize) : d.tag = c.tag := by
  rcases h with rfl | rfl
  · rfl
  · exact tag_evaluateSize c

/-- A child that is inserted is the last one. -/
theorem childlist_insertChild {child : KnvNode} {r : ℕ} (h : Rooted t)
    (hr : (insertChild child true true {} t).ret = .ok r) :
    ∃ c, (insertChild child true true {} t).node.childlist = t.childlist ++ [c] ∧ c.tag = child.tag := by
  obtain ⟨-, -, c, d, hc, hd, heq⟩ := insertChild_ok hr
  cases hc
  refine ⟨d.at' t.slots, ?_, (show (d.at' t.slots).tag = d.tag from rfl).trans (tag_linked hd)⟩
  rw [heq, innerExpand_of_expanded h.expanded, (touched_finish ..).childlist]
  rfl

theorem whole_addBody (hw : Whole p) {b : KnvNode} {own : Bool} (hcopy : p.NoCopy b own) : Whole (p.addBody b own).1 := by
  unfold addBody
  split
  · exact hw.congr rfl rfl rfl
  next t ht =>
  have hbel := hw t ht
  rw [if_neg (not_not_intro hbel.rooted.tag)]
  split
  · exact hw.congr rfl rfl rfl
  next htag =>
  simp only
  split
  · exact ((steady_insertChild (q := { p with tree := some _ }) ht _ _ _ _ rfl rfl rfl).trans (steady_fail ..)).whole hw
  next r hr =>
  have hown : own = true := by
    rcases hcopy with h | h | h | h
    · exact h
    · rw [isValid, ht] at h
      exact absurd h (by simp [hbel.rooted.tag])
    · exact absurd (not_not.mp htag) h
    · obtain ⟨-, -, c, -, hc, -⟩ := insertChild_ok hr
      cases own with
      | true => rfl
      | false =>
        rw [hc] at h
        cases h
  subst hown
  obtain ⟨c, hlist, hctag⟩ := childlist_insertChild hbel.rooted hr
  have hmem : c ∈ (insertChild b true true {} t).node.childlist := by simp [hlist]
  have hkeep : Keeps p.PointsTo t (insertChild b true true {} t).node := .insertChild hbel.rooted ..
  obtain ⟨a, ha, hhdr⟩ := hbel.header
  intro t' ht'
  cases ht'
  refine ⟨hkeep.rooted, ⟨a, ha, hkeep.child (.inl ha) hhdr⟩, fun q hq =>
    ⟨c.self, ?_, c, hmem, rfl, hctag.trans (not_not.mp htag)⟩⟩
  simp only [if_true, hlist, List.getLast?_concat, Option.map_some, Option.some.injEq] at hq
  exact hq.symm

theorem ret_removeChildrenByTag (hv : t.isValid = true) (tag : UInt32) (pl : Place) :
    ∃ r, (t.removeChildrenByTag tag pl).ret = .ok r := by
  unfold KnvNode.removeChildrenByTag
  rw [if_neg (by simp [hv])]
  simp only
  split <;> exact ⟨_, rfl⟩

theorem whole_removeAllBodies (hw : Whole p) : Whole p.removeAllBodies.1 := by
  unfold removeAllBodies
  split
  swap
  · exact hw.congr rfl rfl rfl
  next t _ ht =>
  have hbel := hw t ht
  obtain ⟨a, ha, hhdr⟩ := hbel.header
  obtain ⟨r, hr⟩ := ret_removeChildrenByTag hbel.rooted.valid knvPkgBdyTag {}
  have hkeep : Keeps (fun a => p.header = some a) t (t.removeChildrenByTag knvPkgBdyTag {}).node := by
    refine .removeChildrenByTag hbel.rooted (fun a' ha' hc => ?_) {}
    cases ha.symm.trans ha'
    exact absurd (hbel.rooted.tag_unique hc hhdr) (by decide)
  simp only [hr]
  intro t' ht'
  cases ht'
  exact ⟨hkeep.rooted, ⟨a, ha, hkeep.child ha hhdr⟩, fun b hb => nomatch hb⟩

/-- After `RemoveAllBodies` a packet is as valid as before. -/
theorem isValid_removeAllBodies (p : KnvProtocol) : p.removeAllBodies.1.isValid = p.isValid := by
  unfold removeAllBodies
  split
  swap
  · rfl
  next t _ ht =>
  have htag := (stays_removeChildrenByTag knvPkgBdyTag {} t).tag
  simp only
  split
  · simp only [fail, isValid, ht, htag]
  · simp only [isValid, ht, htag]

theorem whole_reassignBody (hw : Whole p) {newBody : Option KnvNode} {own : Bool}
    (hcopy : ∀ b, newBody = some b → p.NoCopy b own) : Whole (p.reassignBody newBody own).1 := by
  have hrem := whole_removeAllBodies hw
  have hvalid := isValid_removeAllBodies p
  unfold reassignBody
  generalize p.removeAllBodies = r at hrem hvalid ⊢
  obtain ⟨q, z⟩ := r
  split
  · next heq =>
    cases heq
    cases newBody with
    | none => exact hrem
    | some b =>
      have hadd : Whole (q.addBody b own).1 := whole_addBody hrem (by
        rw [NoCopy, hvalid]
        exact hcopy b rfl)
      simp only
      split
      · next heq => exact (congrArg Prod.fst heq) ▸ hadd
      · next heq => exact (congrArg Prod.fst heq) ▸ hadd
  · next heq =>
    cases heq
    exact hrem

/-- What is found becomes the current body. -/
theorem whole_withBody (hw : Whole p) {found : Option KnvNode}
    (hfound : ∀ t, p.tree = some t → Rooted t → ∀ b, found = some b → b ∈ t.childlist ∧ b.tag = knvPkgBdyTag) :
    Whole (p.withBody found).1 := by
  cases found with
  | none => exact hw
  | some b =>
    intro t ht
    have hbel := hw t ht
    obtain ⟨hmem, htag⟩ := hfound t ht hbel.rooted b rfl
    refine ⟨hbel.rooted, hbel.header, fun b' hb' => ?_⟩
    cases hb'
    exact ⟨b.self, rfl, b, hmem, rfl, htag⟩

theorem findFirstBody_some {l : List KnvNode} {b : KnvNode} (h : findFirstBody l = some b) :
    b ∈ l ∧ b.tag = knvPkgBdyTag := by
  have htag := List.find?_some h
  exact ⟨List.mem_of_find?_eq_some h, of_decide_eq_true htag⟩

theorem whole_getFirstRequest (hw : Whole p) : Whole p.getFirstRequest.1 := by
  refine whole_withBody hw fun t ht h b hb => ?_
  rw [ht, Option.bind_some] at hb
  obtain ⟨hmem, htag⟩ := findFirstBody_some hb
  rw [KnvNode.children, h.valid, if_pos rfl, innerExpand_of_expanded h.expanded] at hmem
  exact ⟨hmem, htag⟩

theorem whole_getNextRequest (hw : Whole p) : Whole p.getNextRequest.1 := by
  refine whole_withBody hw fun t ht h b hb => ?_
  rw [ht, Option.bind_some] at hb
  obtain ⟨q, -, hb⟩ := Option.bind_eq_some_iff.mp hb
  obtain ⟨hmem, htag⟩ := findFirstBody_some hb
  cases q with
  | child a => exact ⟨(List.dropWhile_sublist _).subset (List.mem_of_mem_tail hmem), htag⟩
  | other b' => exact absurd hmem List.not_mem_nil

/-! ### Decoding -/

/-- `GetFirstRequest` of a tree that has been looked into. -/
def firstBody (t : KnvNode) : Option BodyPtr := (findFirstBody t.childlist).map fun b => .child b.self

/-- Children that stay where they are. -/
theorem firstBody_of_sameStand (h : SameStand t t') : firstBody t' = firstBody t := by
  have key : ∀ l : List KnvNode, (findFirstBody l).map (fun b => BodyPtr.child b.self) =
      ((l.map fun c => (c.self, c.tag, c.type)).find? fun x => x.2.1 = knvPkgBdyTag).map fun x => .child x.1 := by
    intro l
    rw [List.find?_map, Option.map_map]
    rfl
  rw [firstBody, firstBody, key, key, h.children]

theorem steady_initHeaderInfo : Steady p p.initHeaderInfo := by
  unfold initHeaderInfo
  split
  · exact steady_of_same rfl rfl rfl
  · exact steady_onHeader (fun _ _ => stays_expandOp ..) fun _ _ => steady_of_same rfl rfl rfl

/-- A tree that has been made of a value, as it is before it is looked into. -/
structure Fresh (t : KnvNode) : Prop where
  shape : Shape t
  metas : t.metalist = []
  children : t.childlist = []

/-- **`InitProtocol`** finds the header and the first body, if it does not know the header. -/
theorem whole_initProtocol (h : ∀ t, p.tree = some t → p.header = none ∧ Fresh t) : Whole p.initProtocol ∧
    ∀ t, p.initProtocol.tree = some t → p.initProtocol.body = firstBody t := by
  unfold initProtocol
  cases ht : p.tree with
  | none => exact ⟨whole_of_none rfl, fun t h => (by cases h)⟩
  | some t =>
    obtain ⟨hhdr, hfresh⟩ := h t ht
    simp only
    split
    · exact ⟨whole_of_none rfl, fun t h => (by cases h)⟩
    next htag =>
    have htag' := not_not.mp htag
    have hv : t.isValid = true := by
      rw [KnvNode.isValid, htag']
      rfl
    have hroot := rooted_innerExpand htag' hfresh.shape hfresh.metas hfresh.children false false
    obtain ⟨r, hr, hfound⟩ := hroot.find (by decide : ucMaxMetaNum < knvPkgHdrTag) {}
    have hfind : t.findChildByTag knvPkgHdrTag {} = (t.innerExpand false false, r) := by
      rw [findChildByTag_innerExpand, hv, if_pos rfl, hr]
    unfold expandTree
    rw [hhdr, hfind]
    cases r with
    | none => exact ⟨whole_of_none rfl, fun t h => (by cases h)⟩
    | some a =>
      simp only [Option.isNone_some, Bool.false_eq_true, if_false]
      have hchildren : t.children = (t.innerExpand false false).childlist := by rw [KnvNode.children, hv, if_pos rfl]
      generalize hq : ({ p with
        tree := some (t.innerExpand false false)
        header := some a
        body := (findFirstBody t.children).map fun b => BodyPtr.child b.self } : KnvProtocol) = q
      have hbody : q.body = firstBody (t.innerExpand false false) := by
        rw [← hq, hchildren]
        rfl
      have htree : q.tree = some (t.innerExpand false false) := by rw [← hq]
      have hw : Whole q := by
        intro t' ht'
        cases htree.symm.trans ht'
        refine ⟨hroot, ⟨a, by rw [← hq], hfound a rfl⟩, fun b hb => ?_⟩
        rw [hbody] at hb
        obtain ⟨c, hc, rfl⟩ := Option.map_eq_some_iff.mp hb
        obtain ⟨hmem, hctag⟩ := findFirstBody_some hc
        exact ⟨c.self, rfl, c, hmem, rfl, hctag⟩
      refine ⟨steady_initHeaderInfo.whole hw, fun t' ht' => ?_⟩
      obtain ⟨-, hb, hstand⟩ := initHeaderInfo_spec q
      obtain ⟨t₀, ht₀, hsame⟩ := hstand t' ht'
      cases htree.symm.trans ht₀
      rw [hb, hbody, firstBody_of_sameStand hsame]

/-- `InitProtocol`, where the header is known. -/
theorem steady_initProtocol (hw : Whole p) : Whole p.initProtocol ∧
    ∀ t', p.initProtocol.tree = some t' → p.initProtocol.body = p.body ∧ ∃ t, p.tree = some t ∧ SameStand t t' := by
  unfold initProtocol
  cases ht : p.tree with
  | none => exact ⟨whole_of_none rfl, fun t h => (by cases h)⟩
  | some t =>
    have hbel := hw t ht
    obtain ⟨a, ha, -⟩ := hbel.header
    have hexpand : p.expandTree t = p := by
      unfold expandTree
      rw [ha]
    simp only
    rw [if_neg (not_not_intro hbel.rooted.tag), hexpand, ht, if_neg (by simp)]
    obtain ⟨-, hb, hstand⟩ := initHeaderInfo_spec p
    refine ⟨steady_initHeaderInfo.whole hw, fun t' ht' => ⟨hb, ?_⟩⟩
    obtain ⟨t₀, ht₀, hsame⟩ := hstand t' ht'
    exact ⟨t₀, ht.symm.trans ht₀, hsame⟩

theorem rooted_initNode : Rooted (initNode knvPkgTag .string none) :=
  ⟨rfl, shape_initNode .., rfl, fun _ h => absurd h List.not_mem_nil, fun _ => rfl⟩

/-- Bodies of this format: there is no current one. -/
theorem whole_initBodies {hdr : KnvNode} (hhdr : hdr.tag = knvPkgHdrTag) (bdy : Bytes) : Whole (initBodies hdr bdy {}) := by
  unfold initBodies
  split
  · exact whole_of_none rfl
  next t ht =>
  simp only
  split
  · exact whole_of_none rfl
  next r hr =>
  cases ht
  obtain ⟨-, -, c, d, hc, hd, heq⟩ := insertChild_ok hr
  cases hc
  have hroot := rooted_innerExpand (t := initNode knvPkgTag .string (some { str := bdy })) rfl
    (shape_initNode ..) rfl rfl false false
  have htype : ((initNode knvPkgTag .string (some { str := bdy })).innerExpand false false).type = .string :=
    (expandSame ..).type
  generalize (initNode knvPkgTag .string (some { str := bdy })).innerExpand false false = n at hroot htype heq
  have htouch := touched_finish (n.linkChild d false) d.evalSz
  have hlist : ((n.linkChild d false).finish d.evalSz).node.childlist = d.at' n.slots :: n.childlist := htouch.childlist
  intro t' ht'
  cases ht'
  have heq' : insertChild hdr true false {} (initNode knvPkgTag .string (some { str := bdy })) =
      (n.linkChild d false).finish d.evalSz := heq
  rw [heq']
  refine ⟨(hroot.linkChild htype d false).touched htouch, ⟨n.slots, ?_, d.at' n.slots, ?_, rfl, (tag_linked hd).trans hhdr⟩,
    fun b hb => nomatch hb⟩
  · simp only [hlist]
    rfl
  · rw [hlist]
    exact List.mem_cons_self ..

/-- Anything else becomes the value of one body. -/
theorem whole_initCompat {hdr : KnvNode} (hhdr : hdr.tag = knvPkgHdrTag) (bdy : Bytes) :
    Whole (initCompat hdr bdy {}) ∧ ∀ t, (initCompat hdr bdy {}).tree = some t →
    (initCompat hdr bdy {}).body = firstBody t := by
  have hnone : ∀ e : String, Whole { errmsg := e } ∧ ∀ t, ({ errmsg := e } : KnvProtocol).tree = some t →
      ({ errmsg := e } : KnvProtocol).body = firstBody t := fun _ => ⟨whole_of_none rfl, fun t h => (by cases h)⟩
  unfold initCompat
  split
  · next b t hb ht =>
    cases hb
    cases ht
    simp only
    split
    · exact hnone _
    next r hr =>
    split
    · exact hnone _
    next r' hr' =>
    obtain ⟨h, hlist, htag⟩ := childlist_insertChild rooted_initNode hr
    have hkeep := Keeps.insertChild (P := fun _ => True) rooted_initNode hdr true true {}
    obtain ⟨c, hlist', hctag⟩ := childlist_insertChild hkeep.rooted hr'
    have hkeep' := Keeps.insertChild (P := fun _ => True) hkeep.rooted (initNode knvPkgBdyTag .string (some { str := bdy }))
      true true {}
    have hfull := hlist'.trans (congrArg (· ++ [c]) hlist)
    have hfirst : findFirstBody [h, c] = some c := by
      have hne : ¬h.tag = knvPkgBdyTag := by
        rw [htag, hhdr]
        decide
      have heq : c.tag = knvPkgBdyTag := hctag
      simp [findFirstBody, hne, heq]
    have hmem : h ∈ _ := hlist ▸ List.mem_append_right _ (List.mem_singleton_self h)
    refine ⟨fun t ht => ?_, fun t ht => ?_⟩
    · cases ht
      refine ⟨hkeep'.rooted, ⟨h.self, ?_, hkeep'.child trivial ⟨h, hmem, rfl, htag.trans hhdr⟩⟩, fun b hb => ?_⟩
      · simp only [hlist, List.getLast?_concat, Option.map_some]
      · simp only [hlist', List.getLast?_concat, Option.map_some, Option.some.injEq] at hb
        exact ⟨c.self, hb.symm, c, by rw [hlist']; simp, rfl, hctag⟩
    · cases ht
      have hchildren : (insertChild (initNode knvPkgBdyTag .string (some { str := bdy })) true true {}
          (insertChild hdr true true {} (initNode knvPkgTag .string none)).node).node.childlist = [h, c] := hfull
      simp only [firstBody, hchildren, hfirst, List.getLast?_cons_cons, List.getLast?_singleton, Option.map_some]
  · exact hnone _
  · exact hnone _

/-- A packet of the other format that holds bodies of this one. -/
def ManyBodies (buf : Bytes) : Prop := buf.headD 0 = stxIpv6Pb ∧ ntohs (buf.drop (9 + ntohl (buf.drop 1))) = stxKnvBdy

theorem whole_initFromOidbPkg (buf : Bytes) : Whole (initFromOidbPkg buf {}) ∧
    if ntohs (buf.drop (9 + ntohl (buf.drop 1))) = stxKnvBdy then (initFromOidbPkg buf {}).body = none
    else ∀ t, (initFromOidbPkg buf {}).tree = some t → (initFromOidbPkg buf {}).body = firstBody t := by
  have hnone : ∀ e : String, Whole { errmsg := e } ∧
      if ntohs (buf.drop (9 + ntohl (buf.drop 1))) = stxKnvBdy then ({ errmsg := e } : KnvProtocol).body = none
      else ∀ t, ({ errmsg := e } : KnvProtocol).tree = some t → ({ errmsg := e } : KnvProtocol).body = firstBody t := by
    intro e
    refine ⟨whole_of_none rfl, ?_⟩
    split
    · rfl
    · exact fun t h => nomatch h
  unfold initFromOidbPkg
  split
  · exact hnone _
  simp only
  split
  · exact hnone _
  split
  · exact hnone _
  split
  · exact hnone _
  next hdr hhdr =>
  cases hhdr
  split
  · exact ⟨whole_initBodies rfl _, (initBodies_spec ..).2⟩
  · exact whole_initCompat rfl _

theorem fresh_newFromBytes {bs : Bytes} {t : KnvNode} (h : newFromBytes bs = .ok t) : Fresh t := by
  unfold newFromBytes at h
  split at h
  · cases h
  · cases h
    exact ⟨shape_initNode .., rfl, rfl⟩

/-- **What is decoded** has its header, and its first body if the decoder looks for it. -/
theorem whole_decode (buf : Bytes) : Whole (decode buf) ∧ ∀ t, (decode buf).tree = some t →
    (¬ManyBodies buf → (decode buf).body = firstBody t) ∧ (ManyBodies buf → (decode buf).body = none) := by
  unfold decode ofBuf
  split
  · next hstx =>
    obtain ⟨hw, hfirst⟩ := whole_initFromOidbPkg buf
    obtain ⟨hw', hbody⟩ := steady_initProtocol hw
    refine ⟨hw', fun t' ht' => ?_⟩
    obtain ⟨hb, t, ht, hstand⟩ := hbody t' ht'
    rw [hb]
    refine ⟨fun hmany => ?_, fun hmany => ?_⟩
    · rw [if_neg fun h => hmany ⟨hstx, h⟩] at hfirst
      rw [hfirst t ht, firstBody_of_sameStand hstand]
    · rwa [if_pos hmany.2] at hfirst
  · next hstx =>
    split
    · obtain ⟨hw, hbody⟩ := whole_initProtocol (p := { errmsg := _ }) fun t ht => nomatch ht
      exact ⟨hw, fun t ht => ⟨fun _ => hbody t ht, fun hmany => absurd hmany.1 hstx⟩⟩
    · next t ht =>
      obtain ⟨hw, hbody⟩ := whole_initProtocol (p := { tree := some t }) fun t' ht' => by
        cases ht'
        exact ⟨rfl, fresh_newFromBytes ht⟩
      exact ⟨hw, fun t ht => ⟨fun _ => hbody t ht, fun hmany => absurd hmany.1 hstx⟩⟩

/-! ### Making a packet -/

theorem rooted_of_root {hdr : KnvNode} {bodies : List KnvNode} (h : Root hdr bodies t) : Rooted t ∧ hdr ∈ t.childlist := by
  obtain ⟨bs, hbs, -⟩ := h.childlist
  exact ⟨⟨h.tag, h.asm.shaped.here, h.expanded, fun m hm => (h.asm.written.here.metas m hm).2, fun _ => h.type⟩,
    hbs ▸ List.mem_cons_self ..⟩

theorem Holds.whole {ms cs : List PbField} {bodies : List KnvNode} (h : Holds ms cs bodies p) (hb : p.body = none) :
    Whole p := by
  obtain ⟨t, hdr, ht, hh, hhdr, hroot⟩ := h
  obtain ⟨hrooted, hmem⟩ := rooted_of_root hroot
  intro t' ht'
  cases ht.symm.trans ht'
  exact ⟨hrooted, ⟨hdr.self, hh, hdr, hmem, rfl, hhdr.tag⟩, fun b h => nomatch hb.symm.trans h⟩

theorem whole_newPacket : Whole newPacket := by
  refine holds_newPacket.whole ?_
  unfold newPacket
  split
  · rfl
  simp only
  split <;> rfl

theorem whole_orGiveUp {r : KnvProtocol × ℤ} {k : KnvProtocol → KnvProtocol} (hr : Whole r.1)
    (hk : Whole r.1 → Whole (k r.1)) : Whole (orGiveUp r k) := by
  unfold orGiveUp
  split
  · exact hk hr
  · exact whole_of_none rfl

theorem whole_create (dwCmd dwSubCmd dwSeq : UInt32) : Whole (create dwCmd dwSubCmd dwSeq) := by
  unfold create
  split
  · exact whole_newPacket
  refine whole_orGiveUp ((steady_setHeaderIntField ..).whole whole_newPacket) fun h₁ => ?_
  refine whole_orGiveUp ((steady_setHeaderIntField ..).whole h₁) fun h₂ => ?_
  refine whole_orGiveUp ((steady_setHeaderIntField ..).whole h₂) fun h₃ => ?_
  exact h₃.congr rfl rfl rfl

/-! ### Taking over a packet -/

theorem fresh_duplicate {own : Bool} {n d : KnvNode} (h : n.duplicate own = .ok d) : Fresh d ∧ d.tag = n.tag := by
  unfold duplicate innerDuplicate at h
  split at h
  · cases h
  split at h
  · simp only at h
    split at h
    · cases h
    split at h
    · cases h
    · cases h
      exact ⟨⟨shape_initNode .., rfl, rfl⟩, tag_evaluateSize n⟩
  · cases h
    exact ⟨⟨shape_initNode .., rfl, rfl⟩, rfl⟩

/-- What is looked up in a tree for the first time. -/
theorem Fresh.find (h : Fresh t) (htag : t.tag = knvPkgTag) (hmeta : ucMaxMetaNum < tag) :
    ∃ t' r, t.findChildByTag tag {} = (t', r) ∧ Rooted t' ∧ ∀ a, r = some a → HasChild t' a tag := by
  have hv : t.isValid = true := by
    rw [KnvNode.isValid, htag]
    rfl
  have hroot := rooted_innerExpand htag h.shape h.metas h.children false false
  obtain ⟨r, hr, hfound⟩ := hroot.find hmeta {}
  refine ⟨_, r, ?_, hroot, hfound⟩
  rw [findChildByTag_innerExpand, hv, if_pos rfl, hr]

theorem whole_adopt (hfresh : Fresh t) (htag : t.tag = knvPkgTag) (hb : p.body = none) : Whole (adopt t p).1 := by
  obtain ⟨t₁, r, hr, hroot, hfound⟩ := hfresh.find htag (by decide : ucMaxMetaNum < knvPkgHdrTag)
  unfold adopt
  rw [hr]
  cases r with
  | none => exact whole_of_none rfl
  | some a =>
    have hw : Whole { p with tree := some t₁, header := some a } := by
      intro t' ht'
      cases ht'
      exact ⟨hroot, ⟨a, rfl, hfound a rfl⟩, fun b h => nomatch hb.symm.trans h⟩
    simp only [KnvProtocol.onHeader, Option.bind_some]
    split
    · exact hw.congr rfl rfl rfl
    next o ho =>
    have hstep : Whole { p with tree := some o.node, header := some a } :=
      (steady_onChild (p := { p with tree := some t₁, header := some a })
        (q := { p with tree := some o.node, header := some a })
        rfl (fun _ _ => stays_expandOp ..) ho rfl rfl rfl).whole hw
    have hbel := hstep o.node rfl
    obtain ⟨r', hr', hfound'⟩ := hbel.rooted.find (by decide : ucMaxMetaNum < knvPkgBdyTag) {}
    simp only [hr']
    intro t' ht'
    cases ht'
    refine ⟨hbel.rooted, hbel.header, fun b hb' => ?_⟩
    obtain ⟨a', ha', rfl⟩ := Option.map_eq_some_iff.mp hb'
    exact ⟨a', rfl, hfound' a' ha'⟩

theorem whole_assign {prot : KnvProtocol} (hprot : Whole prot) (ownBuf : Bool) : Whole (p.assign prot ownBuf).1 := by
  unfold assign
  simp only
  split
  · split
    · next t ht =>
      obtain ⟨t₀, ht₀, hdup⟩ := Option.map_eq_some_iff.mp ht
      obtain ⟨hfresh, htag⟩ := fresh_duplicate hdup
      exact whole_adopt hfresh (htag.trans (hprot t₀ ht₀).rooted.tag) rfl
    · exact whole_of_none rfl
  · exact hprot.congr rfl rfl rfl

theorem whole_assignBuf (hw : Whole p) (buf : Bytes) : Whole (p.assignBuf buf).1 := by
  unfold assignBuf
  split
  · exact hw.congr rfl rfl rfl
  · next t ht =>
    refine (whole_initProtocol fun t' ht' => ?_).1
    cases ht'
    exact ⟨rfl, fresh_newFromBytes ht⟩

/-! ### Merging the parts -/

variable {P : ℕ → Prop}

theorem keeps_readPart (h : Rooted t) {i : ℕ} (hi : i < 2495) :
    Keeps P t (readPart i t).1 ∧ ∀ l, (readPart i t).2 = some l → HasChild (readPart i t).1 l.addr (partTag i) := by
  obtain ⟨hmeta, -⟩ := partTag_apart hi
  obtain ⟨r, hr, hfound⟩ := h.find hmeta {}
  unfold readPart
  rw [hr]
  cases r with
  | none => exact ⟨.refl h, fun l hl => nomatch hl⟩
  | some a =>
    simp only
    split
    · next c o _ ho =>
      have hall : ∀ P : ℕ → Prop, Keeps P t o.node := fun P =>
        .onChild h (fun _ n => (stays_getValueOp n).self) (fun _ _ n => (stays_getValueOp n).tag) ho
      refine ⟨hall P, fun l hl => ?_⟩
      cases hl
      exact (hall fun _ => True).child trivial (hfound a rfl)
    · exact ⟨.refl h, fun l hl => nomatch hl⟩

theorem keeps_checkParts : ∀ {is : List ℕ} {totalLen : ℤ} {t : KnvNode}, Rooted t → (∀ i ∈ is, i < 2495) →
    Keeps P t (checkParts is totalLen t).1 := by
  intro is
  induction is with
  | nil => exact fun h _ => .refl h
  | cons i is ih =>
    intro totalLen t h hlt
    obtain ⟨hkeep, -⟩ := keeps_readPart (P := P) h (hlt i (List.mem_cons_self ..))
    unfold checkParts
    generalize readPart i t = r at hkeep ⊢
    obtain ⟨t', r⟩ := r
    cases r with
    | none => exact hkeep
    | some l =>
      simp only
      split
      · exact hkeep
      split
      · exact hkeep
      split
      · exact hkeep
      · exact hkeep.trans (ih hkeep.rooted fun j hj => hlt j (List.mem_cons_of_mem _ hj))

/-- The parts are taken out, and what the packet points to is no part. -/
theorem keeps_takeParts {totalLen : ℤ} : ∀ {is : List ℕ} {buf : Bytes} {t : KnvNode}, Rooted t → (∀ i ∈ is, i < 2495) →
    (∀ a, P a → HasChild t a knvPkgHdrTag ∨ HasChild t a knvPkgBdyTag) → Keeps P t (takeParts totalLen is buf t).1 := by
  intro is
  induction is with
  | nil => exact fun h _ _ => .refl h
  | cons i is ih =>
    intro buf t h hlt hP
    obtain ⟨hkeep, hfound⟩ := keeps_readPart (P := P) h (hlt i (List.mem_cons_self ..))
    obtain ⟨-, hhdr, hbdy⟩ := partTag_apart (hlt i (List.mem_cons_self ..))
    unfold takeParts
    generalize readPart i t = r at hkeep hfound ⊢
    obtain ⟨t', r⟩ := r
    have hP' : ∀ a, P a → HasChild t' a knvPkgHdrTag ∨ HasChild t' a knvPkgBdyTag := fun a ha =>
      (hP a ha).imp (hkeep.child ha) (hkeep.child ha)
    cases r with
    | none => exact hkeep
    | some l =>
      simp only
      split
      · exact hkeep
      split
      · exact hkeep
      have hnot : ¬P l.addr := fun ha => by
        rcases hP' l.addr ha with hc | hc
        · exact hhdr (hkeep.rooted.tag_unique (hfound l rfl) hc)
        · exact hbdy (hkeep.rooted.tag_unique (hfound l rfl) hc)
      have hrem := Keeps.removeChildByPos hkeep.rooted hnot none
      refine (hkeep.trans hrem).trans (ih hrem.rooted (fun j hj => hlt j (List.mem_cons_of_mem _ hj)) fun a ha => ?_)
      exact (hP' a ha).imp (hrem.child ha) (hrem.child ha)

theorem whole_mergeParts (hw : Whole p) (ht : p.tree = some t) : Whole (mergeParts t p).1 := by
  have hbel := hw t ht
  have hlt : ∀ i ∈ List.range p.totalSplitCount.toNat, i < 2495 := fun i hi =>
    Nat.lt_trans (List.mem_range.mp hi) (Nat.lt_trans p.totalSplitCount.toNat_lt (by decide))
  have hcheck : Keeps p.PointsTo t (checkParts (List.range p.totalSplitCount.toNat) 0 t).1 :=
    keeps_checkParts hbel.rooted hlt
  unfold mergeParts
  generalize checkParts (List.range p.totalSplitCount.toNat) 0 t = r at hcheck ⊢
  obtain ⟨t₁, r⟩ := r
  have hw₁ : Steady p { p with tree := some t₁ } := steady_of_keeps ht (fun _ => hcheck) rfl rfl rfl
  cases r with
  | error e => exact (hw₁.trans (steady_fail ..)).whole hw
  | ok r =>
    cases r with
    | none => exact hw₁.whole hw
    | some totalLen =>
      simp only
      split
      · exact (hw₁.trans (steady_fail ..)).whole hw
      have htake : Keeps p.PointsTo t₁ (takeParts totalLen (List.range p.totalSplitCount.toNat) [] t₁).1 := by
        refine keeps_takeParts hcheck.rooted hlt fun a ha => ?_
        rcases ha with ha | ha
        · obtain ⟨a', ha', hchild⟩ := hbel.header
          cases ha.symm.trans ha'
          exact .inl (hcheck.child (.inl ha) hchild)
        · obtain ⟨a', ha', hchild⟩ := hbel.body _ ha
          cases ha'
          exact .inr (hcheck.child (.inr ha) hchild)
      generalize takeParts totalLen (List.range p.totalSplitCount.toNat) [] t₁ = r at htake ⊢
      obtain ⟨t₂, r⟩ := r
      have hw₂ : Whole { p with tree := some t₂ } := (steady_of_keeps (q := { p with tree := some t₂ }) ht
        (fun _ => hcheck.trans htake) rfl rfl rfl).whole hw
      cases r with
      | error e => exact hw₂.congr rfl rfl rfl
      | ok buf =>
        have hassign := whole_assignBuf hw₂ buf
        simp only
        split
        · next heq => exact (congrArg Prod.fst heq) ▸ hassign
        · next heq =>
          have hq := (congrArg Prod.fst heq) ▸ hassign
          exact Whole.congr hq rfl rfl rfl

theorem whole_addPart (hw : Whole p) (ht : p.tree = some t) (pt : KnvNode) {i : ℕ} (hi : i < 2495) :
    Whole (addPart pt t i p).1 := by
  obtain ⟨hmeta, -⟩ := partTag_apart hi
  have hbel := hw t ht
  unfold addPart
  split
  · exact hw.congr rfl rfl rfl
  next c _ =>
  split
  · exact hw.congr rfl rfl rfl
  obtain ⟨r, hr, -⟩ := hbel.rooted.find hmeta {}
  rw [hr]
  cases r with
  | some a => exact hw.congr ht.symm rfl rfl
  | none =>
    have hput : Whole { p with tree := some (insertChild c false true {} t).node } :=
      (steady_insertChild (q := { p with tree := some _ }) ht _ _ _ _ rfl rfl rfl).whole hw
    simp only
    split
    · exact hput.congr rfl rfl rfl
    · exact whole_mergeParts hput rfl

theorem whole_addPartial (hw : Whole p) {part : KnvProtocol} (hpart : Whole part) (ownBuf : Bool) :
    Whole (p.addPartial part ownBuf).1 := by
  unfold addPartial
  split
  · split
    · exact whole_assign hpart ownBuf
    next t ht =>
    split
    · exact whole_assign hpart ownBuf
    · exact whole_addPart hw ht _ (Nat.lt_trans part.currSplitIndex.toNat_lt (by decide))
  · exact hw.congr rfl rfl rfl

/-! ### Domains -/

theorem stays_putDomain (domain : KnvNode) (own : Bool) (pl : Place) (b : KnvNode) :
    Stays b (putDomain domain own pl b).node := by
  have hfind := stays_findChild domain.tag [] pl b
  unfold putDomain
  generalize b.findChild domain.tag [] pl = r at hfind ⊢
  obtain ⟨b', r⟩ := r
  cases r with
  | some a => exact hfind
  | none => exact hfind.trans (stays_insertChild ..)

theorem stays_newDomain (iDomainId : UInt32) (pl : Place) (b : KnvNode) : Stays b (newDomain iDomainId pl b).node := by
  have hfind := stays_findChild iDomainId [] pl b
  unfold newDomain
  generalize b.findChild iDomainId [] pl = r at hfind ⊢
  obtain ⟨b', r⟩ := r
  cases r with
  | some a => exact hfind
  | none => exact hfind.trans (stays_insertNew ..)

theorem whole_onBody (hw : Whole p) {f : Place → KnvNode → Out} {k : KnvProtocol → Except KnvErr ℕ → KnvProtocol × ℤ}
    (hf : ∀ pl n, Stays n (f pl n).node) (hk : ∀ q r, Steady q (k q r).1) : Whole (p.onBody f k).1 := by
  unfold onBody
  split
  · split
    · exact hw.congr rfl rfl rfl
    next o ho =>
    obtain ⟨t, ht, ho⟩ := Option.bind_eq_some_iff.mp ho
    exact ((steady_onChild (q := { p with tree := some o.node }) ht hf ho rfl rfl rfl).trans (hk _ _)).whole hw
  · next b b' hget hb =>
    -- a packet that is valid does not point to a node of the user
    unfold getBody isValid at hget
    split at hget
    swap
    · cases hget
    cases ht : p.tree with
    | none => simp [ht] at *
    | some t =>
      obtain ⟨a, ha, -⟩ := (hw t ht).body _ hb
      cases ha
  · exact hw.congr rfl rfl rfl

end KnvProtocol

end KnvProto
