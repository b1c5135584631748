import KnvProto.Packet.Lookup

/-!
# Children that are held by their addresses

What is left of a node for somebody who keeps the address of one of its children: which
functions let the child stay where it is, under the tag it has.

Nothing here asks for more than the shape of the node. A lookup may miss a child, but what
it finds is a child with the tag that was asked for (`Rooted.find`).
-/

namespace KnvProto

open PathEdit

namespace KnvNode

/-! ### What a parent sees of a node -/

/-- The address, the tag and the type stay. -/
structure Stays (n n' : KnvNode) : Prop where
  self : n'.self = n.self
  tag : n'.tag = n.tag
  type : n'.type = n.type

theorem Stays.refl (n : KnvNode) : Stays n n := ⟨rfl, rfl, rfl⟩

theorem Stays.trans {n n' n'' : KnvNode} (h : Stays n n') (h' : Stays n' n'') : Stays n n'' :=
  ⟨h'.self.trans h.self, h'.tag.trans h.tag, h'.type.trans h.type⟩

theorem Touched.stays {n n' : KnvNode} (h : Touched n n') : Stays n n' := ⟨h.self, h.tag, h.type⟩

theorem stays_innerExpand (pk k : Bool) (n : KnvNode) : Stays n (n.innerExpand pk k) :=
  ⟨(expandSame pk k n).self, (expandSame pk k n).tag, (expandSame pk k n).type⟩

theorem stays_evaluateSize (n : KnvNode) : Stays n n.evaluateSize := by
  refine ⟨?_, tag_evaluateSize n, type_evaluateSize n⟩
  obtain ⟨d, ms, cs⟩ := n
  rw [evaluateSize]
  simp only
  split
  · rfl
  split <;> rfl

/-- A function that ends with a change of the sizes. -/
theorem Stays.finish {n n' n'' : KnvNode} {o : ℤ} (h : Stays n n') (h' : Stays n' n'') : Stays n (n''.finish o).node :=
  (h.trans h').trans (touched_finish n'' o).stays

theorem stays_insertChild (child : KnvNode) (own atTail : Bool) (pl : Place) (n : KnvNode) :
    Stays n (insertChild child own atTail pl n).node := by
  refine insertChild_rule (P := fun o => Stays n o.node) (fun _ => .refl n) fun _ _ n' hn' => ?_
  have hexp : Stays n n' := hn' ▸ stays_innerExpand ..
  exact ⟨fun _ => hexp, fun c _ c' _ => hexp.finish ⟨rfl, rfl, rfl⟩⟩

theorem stays_insertNew (child : Except KnvErr KnvNode) (pl : Place) (n : KnvNode) :
    Stays n (n.insertNew child pl).node := by
  unfold insertNew
  split
  · exact .refl n
  · exact stays_insertChild ..

theorem stays_removeChildrenByTag (t : UInt32) (pl : Place) (n : KnvNode) : Stays n (n.removeChildrenByTag t pl).node := by
  refine removeChildrenByTag_rule (P := fun o => Stays n o.node) (fun _ => .refl n) fun _ n' hn' => ?_
  have hexp : Stays n n' := hn' ▸ stays_innerExpand ..
  refine ⟨hexp, fun matched _ _ o ho => ?_⟩
  exact ho ▸ hexp.finish ⟨rfl, rfl, rfl⟩

theorem stays_setMetaInner (tag : UInt32) (type : PbType) (data : Option PbVal) (pl : Place) (n : KnvNode) :
    Stays n (n.setMetaInner tag type data true pl).node := by
  refine setMetaInner_rule (P := fun o => Stays n o.node) (fun _ _ => .refl n) fun _ _ _ n' hn' => ?_
  have hexp : Stays n n' := hn' ▸ stays_innerExpand ..
  exact ⟨fun m _ => hexp.finish ⟨rfl, rfl, rfl⟩, fun _ => hexp.finish ⟨rfl, rfl, rfl⟩⟩

theorem stays_innerRemoveMeta (tag : UInt32) (pl : Place) (n : KnvNode) : Stays n (n.innerRemoveMeta tag pl).node := by
  refine innerRemoveMeta_rule (P := fun o => Stays n o.node) (fun _ _ => .refl n) fun _ _ n' hn' => ?_
  have hexp : Stays n n' := hn' ▸ stays_innerExpand ..
  exact ⟨fun _ => hexp, fun m _ => hexp.finish ⟨rfl, rfl, rfl⟩⟩

theorem stays_setKey (ktype : PbType) (kval : Option PbVal) (pl : Place) (n : KnvNode) :
    Stays n (n.setKey ktype kval pl).node := by
  refine setKey_rule (P := fun o => Stays n o.node) fun n' hn' o ho => ?_
  have hn : Stays n n' := hn' ▸ ⟨rfl, rfl, rfl⟩
  have ho' : Stays n' o.node := by
    rcases ho with ⟨_, rfl⟩ | ⟨_, rfl⟩
    · exact stays_setMetaInner ..
    · exact stays_innerRemoveMeta ..
  have hall := hn.trans ho'
  exact ⟨fun _ => hall, hall.self, hall.tag, hall.type⟩

theorem stays_setMeta (tag : UInt32) (type : PbType) (data : Option PbVal) (pl : Place) (n : KnvNode) :
    Stays n (n.setMeta tag type data pl).node :=
  setMeta_rule (P := fun o => Stays n o.node) (fun _ _ => stays_setKey ..) fun _ => stays_setMetaInner ..

theorem stays_removeMetaByTag (tag : UInt32) (pl : Place) (n : KnvNode) : Stays n (n.removeMetaByTag tag pl).node := by
  unfold removeMetaByTag
  split
  · exact .refl n
  split
  · exact .refl n
  have hexp := stays_innerExpand pl.parentKeyed false n
  generalize n.innerExpand pl.parentKeyed false = n' at hexp ⊢
  simp only
  split
  · exact hexp
  have hkey : Stays n'
      (if (!n'.noKey && tag == 1) = true then n'.setKey n'.key.type none pl else (⟨n', [], .ok 0⟩ : Out)).node := by
    split
    · exact stays_setKey ..
    · exact .refl n'
  generalize (if (!n'.noKey && tag == 1) = true then n'.setKey n'.key.type none pl else (⟨n', [], .ok 0⟩ : Out)) =
    o at hkey ⊢
  have hall := hexp.trans hkey
  split
  · exact hall
  · exact hall.finish ⟨rfl, rfl, rfl⟩

theorem stays_onChild {n : KnvNode} {a : ℕ} {f : Place → KnvNode → Out} {pl : Place} {o : Out}
    (h : n.onChild a f pl = some o) :
    Stays n o.node := by
  obtain ⟨i, c, o', -, -, -, ht, -⟩ := onChild_cases h
  exact ⟨ht.self, ht.tag, ht.type⟩

theorem stays_findChildByTag (t : UInt32) (pl : Place) (n : KnvNode) : Stays n (n.findChildByTag t pl).1 := by
  unfold findChildByTag
  split
  · exact .refl n
  · exact stays_innerExpand ..

theorem stays_findChild (t : UInt32) (k : Bytes) (pl : Place) (n : KnvNode) : Stays n (n.findChild t k pl).1 := by
  unfold findChild
  split
  · exact .refl n
  · exact stays_innerExpand ..

theorem stays_setChild (tag : UInt32) (type : PbType) (data : PbVal) (pl : Place) (n : KnvNode) :
    Stays n (n.setChild tag type data pl).node := by
  have hfind := stays_findChildByTag tag pl n
  unfold setChild
  generalize n.findChildByTag tag pl = r at hfind ⊢
  simp only
  split
  · split
    · exact hfind
    split
    · exact hfind
    · next o ho =>
      have hc := stays_onChild ho
      exact hfind.trans ⟨hc.self, hc.tag, hc.type⟩
  · exact hfind.trans (stays_insertNew ..)

theorem stays_setField (tag : UInt32) (type : PbType) (data : PbVal) (pl : Place) (n : KnvNode) :
    Stays n (n.setField tag type data pl).node := by
  unfold setField
  split
  · exact stays_setMeta ..
  · exact stays_setChild ..

theorem stays_removeField (tag : UInt32) (pl : Place) (n : KnvNode) : Stays n (n.removeField tag pl).node := by
  unfold removeField
  split
  · exact stays_removeMetaByTag ..
  · exact stays_removeChildrenByTag ..

theorem stays_expandOp (pl : Place) (n : KnvNode) : Stays n (n.expandOp pl).node := by
  unfold expandOp expand
  cases n.isValid with
  | false => exact .refl n
  | true => exact stays_innerExpand ..

theorem stays_getValueOp (n : KnvNode) : Stays n n.getValueOp.node := by
  have heval := stays_evaluateSize n
  refine getValueOp_rule (P := fun o => Stays n o.node) (fun _ => .refl n) (fun _ => heval) (fun _ _ => .refl n) ?_
  intro _ _ n' out hn' _ _
  subst hn'
  exact ⟨heval.self, heval.tag, heval.type⟩

/-! ### The tree of a packet -/

/-- A child with a tag lies at an address. -/
def HasChild (t : KnvNode) (a : ℕ) (tag : UInt32) : Prop := ∃ c ∈ t.childlist, c.self = a ∧ c.tag = tag

/-- What is relied on in the tree of a packet. -/
structure Rooted (t : KnvNode) : Prop where
  tag : t.tag = knvPkgTag
  shape : Shape t
  expanded : t.expanded = true
  /-- The index may still know a meta, but not under the tag of a child. -/
  metas : ∀ m ∈ t.metalist, m.tag ≤ ucMaxMetaNum
  /-- Only a message has children. -/
  type : t.childlist ≠ [] → t.type = .string

/-- The tree stays the tree of a packet, and the children at the addresses in `P` stay under their tags. -/
structure Keeps (P : ℕ → Prop) (t t' : KnvNode) : Prop where
  rooted : Rooted t'
  child : ∀ {a tag}, P a → HasChild t a tag → HasChild t' a tag

variable {P : ℕ → Prop} {t t' : KnvNode} {a : ℕ} {tag tag' : UInt32}

/-- There is one child at an address. -/
theorem Rooted.tag_unique (h : Rooted t) (hc : HasChild t a tag) (hc' : HasChild t a tag') : tag = tag' := by
  obtain ⟨c, hmem, hself, rfl⟩ := hc
  obtain ⟨c', hmem', hself', rfl⟩ := hc'
  rw [List.inj_on_of_nodup_map h.shape.nodup_children hmem hmem' (hself.trans hself'.symm)]

theorem Rooted.valid (h : Rooted t) : t.isValid = true := by
  rw [isValid, h.tag]
  rfl

theorem Keeps.refl (h : Rooted t) : Keeps P t t := ⟨h, fun _ hc => hc⟩

theorem Keeps.trans {t'' : KnvNode} (h : Keeps P t t') (h' : Keeps P t' t'') : Keeps P t t'' :=
  ⟨h'.rooted, fun ha hc => h'.child ha (h.child ha hc)⟩

theorem Rooted.touched (h : Rooted t) (ht : Touched t t') : Rooted t' :=
  ⟨ht.tag.trans h.tag, h.shape.touched ht, ht.expanded.trans h.expanded, ht.metalist ▸ h.metas,
    fun hne => ht.type.trans (h.type (ht.childlist ▸ hne))⟩

theorem Keeps.touched (h : Rooted t) (ht : Touched t t') : Keeps P t t' := by
  refine ⟨h.touched ht, fun _ hc => ?_⟩
  rw [HasChild, ht.childlist]
  exact hc

/-- The tree of a packet that is looked into for the first time. -/
theorem rooted_innerExpand (htag : t.tag = knvPkgTag) (hs : Shape t) (hms : t.metalist = []) (hcs : t.childlist = [])
    (pk k : Bool) : Rooted (t.innerExpand pk k) := by
  have hlists : (∀ m ∈ (t.innerExpand pk k).metalist, m.tag ≤ ucMaxMetaNum) ∧
      ((t.innerExpand pk k).childlist ≠ [] → (t.innerExpand pk k).type = .string) := by
    refine innerExpand_rule (P := fun t' => (∀ m ∈ t'.metalist, m.tag ≤ ucMaxMetaNum) ∧
      (t'.childlist ≠ [] → t'.type = .string))
      (fun _ => ⟨fun m hm => ?_, fun hne => absurd hcs hne⟩) fun t' _ ht' => ?_
    · rw [hms] at hm
      exact absurd hm List.not_mem_nil
    · cases ht' with
      | leaf _ => exact ⟨fun m hm => absurd hm List.not_mem_nil, fun hne => absurd rfl hne⟩
      | cut _ _ _ => exact ⟨fun m hm => absurd hm List.not_mem_nil, fun hne => absurd rfl hne⟩
      | message _ _ _ htype => exact ⟨fun m hm => of_decide_eq_true (List.mem_filter.mp hm).2, fun _ => htype⟩
  exact ⟨(expandSame pk k t).tag.trans htag, hs.innerExpand pk k, innerExpand_expanded .., hlists.1, hlists.2⟩

/-- A lookup finds nothing but children with the tag. -/
theorem find_sound (hv : t.isValid = true) (hexp : t.expanded = true) (hms : ∀ m ∈ t.metalist, m.tag ≤ ucMaxMetaNum)
    (htag : ucMaxMetaNum < tag) (pl : Place) : ∃ r, t.findChildByTag tag pl = (t, r) ∧ ∀ a, r = some a →
    HasChild t a tag := by
  unfold findChildByTag
  rw [if_neg (by simp [hv]), innerExpand_of_expanded hexp]
  refine ⟨_, rfl, fun a ha => ?_⟩
  split at ha
  · cases ha
  split at ha
  · obtain ⟨c, hc, rfl⟩ := Option.map_eq_some_iff.mp ha
    exact ⟨c, List.mem_of_find?_eq_some hc, rfl, by simpa using List.find?_some hc⟩
  · have hmatch := List.find?_some (show List.find? _ _ = some a from ha)
    have hlook : t.look a = (tag, []) := of_decide_eq_true hmatch
    have hzero : tag ≠ 0 := fun h0 => absurd htag (by rw [h0]; decide)
    unfold look at hlook
    split at hlook
    swap
    · exact absurd (Prod.mk.inj hlook).1.symm hzero
    next c hc =>
    obtain ⟨rfl, -⟩ := Prod.mk.inj hlook
    have hat := List.find?_some (show List.find? _ _ = some c from hc)
    have hself : c.self = a := of_decide_eq_true hat
    rcases List.mem_append.mp (List.mem_of_find?_eq_some hc) with hmem | hmem
    · exact ⟨c, hmem, hself, rfl⟩
    · exact absurd (hms c hmem) (UInt32.not_le.mpr htag)

/-- **What a lookup finds** is a child with the tag, whatever the index misses. -/
theorem Rooted.find (h : Rooted t) (htag : ucMaxMetaNum < tag) (pl : Place) : ∃ r, t.findChildByTag tag pl = (t, r) ∧
    ∀ a, r = some a → HasChild t a tag :=
  find_sound h.valid h.expanded h.metas htag pl

/-- A function that is run on a child: the others stay, and so does this one if its tag does. -/
theorem Keeps.onChild (h : Rooted t) {f : Place → KnvNode → Out} {pl : Place} {o : Out}
    (hself : ∀ pl n, (f pl n).node.self = n.self) (htag : P a → ∀ pl n, (f pl n).node.tag = n.tag)
    (ho : t.onChild a f pl = some o) : Keeps P t o.node := by
  obtain ⟨i, c, o', hc, rfl, ho', ht, -⟩ := onChild_cases ho
  have hself' : o'.node.self = c.self := ho' ▸ hself _ c
  obtain ⟨hi, rfl⟩ := List.getElem?_eq_some_iff.mp hc
  have hslot : Rooted (t.setSlot (.ofChild i) o'.node) := by
    refine ⟨h.tag, h.shape.of_sublist
      (fun hf => absurd (h.expanded.symm.trans hf) Bool.noConfusion) ?_ rfl h.shape.evaluated,
      h.expanded, h.metas, fun _ => h.type (List.ne_nil_of_mem (List.getElem_mem hi))⟩
    rw [addrs_setSlot (s := .ofChild i) hc hself']
  refine ⟨hslot.touched ht, fun {a tag} ha ⟨x, hx, hxa, hxt⟩ => ?_⟩
  rw [HasChild, ht.childlist, setSlot_ofChild]
  obtain ⟨j, hj, rfl⟩ := List.getElem_of_mem hx
  by_cases hij : i = j
  · subst hij
    refine ⟨o'.node, List.mem_set hj _, hself'.trans hxa, ?_⟩
    rw [ho', htag (hxa ▸ ha)]
    exact hxt
  · refine ⟨t.childlist[j], List.mem_iff_getElem?.mpr ⟨j, ?_⟩, hxa, hxt⟩
    rw [List.getElem?_set_ne hij]
    exact List.getElem?_eq_getElem hj

theorem Rooted.linkChild (h : Rooted t) (htype : t.type = .string) (c : KnvNode) (atTail : Bool) :
    Rooted (t.linkChild c atTail) :=
  ⟨h.tag, shape_linkChild h.shape h.expanded atTail, h.expanded, h.metas, fun _ => htype⟩

/-- `InsertChild` leaves the children alone. -/
theorem Keeps.insertChild (h : Rooted t) (child : KnvNode) (own atTail : Bool) (pl : Place) :
    Keeps P t (insertChild child own atTail pl t).node := by
  refine insertChild_rule (P := fun o => Keeps P t o.node) (fun _ => .refl h) fun _ htype n' hn' => ?_
  rw [innerExpand_of_expanded h.expanded] at hn'
  subst hn'
  refine ⟨fun _ => .refl h, fun c _ c' _ => ?_⟩
  have hlink : Keeps P n' (n'.linkChild c' atTail) := by
    refine ⟨h.linkChild htype c' atTail, fun _ ⟨x, hx, hxa⟩ => ⟨x, ?_, hxa⟩⟩
    rw [childlist_linkChild]
    split
    · exact List.mem_append_left _ hx
    · exact List.mem_cons_of_mem _ hx
  exact hlink.trans (.touched hlink.rooted (touched_finish ..))

/-- Some of the children are taken out. -/
theorem Keeps.fewer (h : Rooted t) (ht : KnvHt) {cs : List KnvNode} (hsub : cs.Sublist t.childlist)
    (hcs : ∀ c ∈ t.childlist, P c.self → c ∈ cs) (o : ℤ) :
    Keeps P t (finish { t with ht := ht, childlist := cs } o).node := by
  have hfew : Keeps P t { t with ht := ht, childlist := cs } := by
    refine ⟨⟨h.tag, ?_, h.expanded, h.metas, fun hne => h.type fun hnil => hne (List.sublist_nil.mp (hnil ▸ hsub))⟩,
      fun {a tag} ha ⟨x, hx, hxa, hxt⟩ => ⟨x, hcs x hx (hxa ▸ ha), hxa, hxt⟩⟩
    exact h.shape.of_sublist (fun hf => absurd (h.expanded.symm.trans hf) Bool.noConfusion)
      ((hsub.append (List.Sublist.refl _)).map _) rfl h.shape.evaluated
  exact hfew.trans (.touched hfew.rooted (touched_finish ..))

/-- `RemoveChildrenByTag` leaves the children with other tags alone. -/
theorem Keeps.removeChildrenByTag (h : Rooted t) (hP : ∀ a, P a → ¬HasChild t a tag) (pl : Place) :
    Keeps P t (t.removeChildrenByTag tag pl).node := by
  refine removeChildrenByTag_rule (P := fun o => Keeps P t o.node) (fun _ => .refl h) fun _ n' hn' => ?_
  rw [innerExpand_of_expanded h.expanded] at hn'
  subst hn'
  refine ⟨.refl h, fun matched _ _ o ho => ?_⟩
  subst ho
  refine Keeps.fewer h _ List.filter_sublist (fun c hc hPc => List.mem_filter.mpr ⟨hc, ?_⟩) _
  exact decide_eq_true (p := c.tag ≠ tag) fun hct => hP c.self hPc ⟨c, hc, rfl, hct⟩

/-- `RemoveChildByPos` leaves the children at other addresses alone. -/
theorem Keeps.removeChildByPos (h : Rooted t) (ha : ¬P a) (pos : Option ℕ) : Keeps P t (t.removeChildByPos a pos).node := by
  refine removeChildByPos_rule (P := fun o => Keeps P t o.node) (.refl h) fun c hc o ho => ?_
  subst ho
  refine Keeps.fewer h _ List.eraseP_sublist (fun x hx hPx => ?_) _
  have hxa : ¬decide (x.self = a) = true := fun hxa => ha (of_decide_eq_true hxa ▸ hPx)
  exact (List.mem_eraseP_of_neg (p := fun x : KnvNode => x.self = a) hxa).mpr hx

end KnvNode

end KnvProto
