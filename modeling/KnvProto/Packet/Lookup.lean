import KnvProto.Packet.RoundTrip

/-!
# Children that are found by their tags

What is left of a node when a child is inserted, removed or changed, for somebody who
looks its children up with `FindChildByTag`: `Findable` is what such a lookup relies on,
`withTag` are the children that it is about, and each function of the node says what it
does to them.
-/

namespace KnvProto

open PathEdit

namespace KnvNode

/-! ### The child at an address -/

/-- What a function does to a child, the node makes of it. -/
theorem onChild_cases {t : KnvNode} {a : ℕ} {f : Place → KnvNode → Out} {pl : Place} {o : Out}
    (h : t.onChild a f pl = some o) : ∃ i c o', t.childlist[i]? = some c ∧ c.self = a ∧ o' = f (t.place (.ofChild i)) c ∧
      Touched (t.setSlot (.ofChild i) o'.node) o.node ∧ o.ret = o'.ret := by
  rw [onChild] at h
  obtain ⟨c, o', hget, ho', rfl⟩ := editAt_cons h
  rw [editAt_nil] at ho'
  have hslot : t.slot (.ofChild (t.childlist.findIdx fun c => c.self = a)) = some c := hget
  have hc : t.childlist[t.childlist.findIdx fun c => c.self = a]? = some c := hslot
  obtain ⟨hlt, hci⟩ := List.getElem?_eq_some_iff.mp hc
  have hself := List.findIdx_getElem (w := hlt)
  rw [hci] at hself
  refine ⟨_, c, o', hc, of_decide_eq_true hself, (Option.some.inj ho').symm, ?_, rfl⟩
  rw [notify_setSlot hslot]
  exact touched_handleAll ..

/-- What an insertion that succeeds does: the child, or a copy of it, is linked to the expanded node. -/
theorem insertChild_ok {n child : KnvNode} {own atTail : Bool} {pl : Place} {r : ℕ}
    (h : (insertChild child own atTail pl n).ret = .ok r) : n.isValid = true ∧ n.type = .string ∧
      ∃ c d, child.toLink own = .ok c ∧ (d = c ∨ d = c.evaluateSize) ∧
        insertChild child own atTail pl n = ((n.innerExpand pl.parentKeyed false).linkChild d atTail).finish d.evalSz := by
  revert h
  refine insertChild_rule (P := fun o => o.ret = .ok r → n.isValid = true ∧ n.type = .string ∧
    ∃ c d, child.toLink own = .ok c ∧ (d = c ∨ d = c.evaluateSize) ∧
      o = ((n.innerExpand pl.parentKeyed false).linkChild d atTail).finish d.evalSz) (fun e he => nomatch he)
    fun hv ht n' hn' => ⟨fun e he => (nomatch he), fun c hc c' hc' _ => ⟨hv, ht, c, c', hc, ?_, hn' ▸ rfl⟩⟩
  split at hc'
  · exact .inr hc'
  · exact .inl hc'

/-- The children after a child has been linked. -/
theorem childlist_linkChild (n c : KnvNode) (atTail : Bool) : (n.linkChild c atTail).childlist =
    if atTail then n.childlist ++ [c.at' n.slots] else c.at' n.slots :: n.childlist := by
  simp only [linkChild]

theorem type_evaluateSize (n : KnvNode) : n.evaluateSize.type = n.type := by
  obtain ⟨d, ms, cs⟩ := n
  rw [evaluateSize]
  simp only
  split
  · rfl
  split <;> rfl

theorem tag_evaluateSize (n : KnvNode) : n.evaluateSize.tag = n.tag := by
  obtain ⟨d, ms, cs⟩ := n
  rw [evaluateSize]
  simp only
  split
  · rfl
  split <;> rfl

/-- The children stand where they stood, with their tags and types. -/
structure SameStand (t t' : KnvNode) : Prop where
  tag : t'.tag = t.tag
  children : t'.childlist.map (fun c => (c.self, c.tag, c.type)) = t.childlist.map fun c => (c.self, c.tag, c.type)

theorem SameStand.refl (t : KnvNode) : SameStand t t := ⟨rfl, rfl⟩

/-- A child is found at the same address. -/
theorem SameStand.mem {t t' : KnvNode} (h : SameStand t t') {c' : KnvNode} (hc : c' ∈ t'.childlist) :
    ∃ c ∈ t.childlist, c.self = c'.self ∧ c.tag = c'.tag ∧ c.type = c'.type := by
  have hmem : (c'.self, c'.tag, c'.type) ∈ t'.childlist.map fun c => (c.self, c.tag, c.type) :=
    List.mem_map.mpr ⟨c', hc, rfl⟩
  rw [h.children] at hmem
  obtain ⟨c, hc, heq⟩ := List.mem_map.mp hmem
  simp only [Prod.mk.injEq] at heq
  exact ⟨c, hc, heq⟩

/-- A function that keeps what the parent sees of a child keeps the children. -/
theorem sameStand_onChild {t : KnvNode} {a : ℕ} {f : Place → KnvNode → Out} {pl : Place} {o : Out}
    (hf : ∀ pl n, (f pl n).node.self = n.self ∧ (f pl n).node.tag = n.tag ∧ (f pl n).node.type = n.type)
    (h : t.onChild a f pl = some o) : SameStand t o.node := by
  obtain ⟨i, c, o', hc, -, rfl, ht, -⟩ := onChild_cases h
  obtain ⟨hself, htag, htype⟩ := hf (t.place (.ofChild i)) c
  refine ⟨ht.tag, ?_⟩
  have hget : (t.childlist.map fun c => (c.self, c.tag, c.type))[i]? = some (c.self, c.tag, c.type) := by
    rw [List.getElem?_map, hc]
    rfl
  obtain ⟨hlt, hget⟩ := List.getElem?_eq_some_iff.mp hget
  rw [ht.childlist, setSlot_ofChild, List.map_set, hself, htag, htype, ← hget]
  exact List.set_getElem_self hlt

/-! ### Lookups -/

/-- What a lookup of a child relies on. -/
structure Findable (n : KnvNode) : Prop where
  valid : n.isValid = true
  expanded : n.expanded = true
  shape : Shape n
  indexed : Indexed n
  keys : KeysSeen n

theorem Readable.findable {n : KnvNode} (h : Readable n) : Findable n := ⟨h.valid, h.expanded, h.shape, h.indexed, h.keys⟩

/-- The children with a tag. -/
def withTag (n : KnvNode) (t : UInt32) : List KnvNode := n.childlist.filter fun c => c.tag = t

theorem mem_withTag {n c : KnvNode} {t : UInt32} : c ∈ n.withTag t ↔ c ∈ n.childlist ∧ c.tag = t := by
  rw [withTag, List.mem_filter, decide_eq_true_iff]

variable {n n' : KnvNode} {t : UInt32}

/-- The only child with a tag is found. -/
theorem Findable.find {c : KnvNode} (h : Findable n) (hc : n.withTag t = [c]) (pl : Place) :
    n.findChildByTag t pl = (n, some c.self) ∧ n.childlist.find? (fun x => x.self = c.self) = some c := by
  obtain ⟨hmem, rfl⟩ := mem_withTag.mp (show c ∈ n.withTag t from hc ▸ List.mem_singleton_self c)
  refine ⟨findChildByTag_of_unique h.indexed h.shape h.keys h.valid h.expanded hmem (fun x hx hxt => ?_) pl,
    find?_self h.shape.nodup_children hmem⟩
  have hx' : x ∈ n.withTag c.tag := mem_withTag.mpr ⟨hx, hxt⟩
  rw [hc] at hx'
  exact List.mem_singleton.mp hx'

/-- A tag that no child has is not found. -/
theorem Findable.find_none (h : Findable n) (hc : n.withTag t = []) (pl : Place) : n.findChildByTag t pl = (n, none) := by
  refine findChildByTag_of_none h.indexed h.shape h.expanded (fun x hx hxt => ?_) pl
  have hx' : x ∈ n.withTag t := mem_withTag.mpr ⟨hx, hxt⟩
  rw [hc] at hx'
  exact absurd hx' List.not_mem_nil

/-- What is found is a child with the tag. -/
theorem Findable.of_find {a : ℕ} {pl : Place} (h : Findable n) (hf : n.findChildByTag t pl = (n', some a)) :
    n' = n ∧ ∃ c ∈ n.withTag t, c.self = a := by
  unfold findChildByTag at hf
  rw [if_neg (by simp [h.valid]), innerExpand_of_expanded h.expanded] at hf
  simp only [Prod.mk.injEq] at hf
  obtain ⟨rfl, hf⟩ := hf
  refine ⟨rfl, ?_⟩
  split at hf
  · cases hf
  split at hf
  · obtain ⟨c, hc, rfl⟩ := Option.map_eq_some_iff.mp hf
    exact ⟨c, mem_withTag.mpr ⟨List.mem_of_find?_eq_some hc, by simpa using List.find?_some hc⟩, rfl⟩
  · obtain ⟨ha, hlook⟩ := h.indexed.ht.of_get hf
    obtain ⟨c, hc, rfl⟩ := List.mem_map.mp ha
    rw [look_child h.shape.nodup_children hc, Prod.mk.injEq] at hlook
    exact ⟨c, mem_withTag.mpr ⟨hc, hlook.1⟩, rfl⟩

theorem Findable.onChild {c : KnvNode} {i : ℕ} (h : Findable n) (hc : n.childlist[i]? = some c) {f : Place → KnvNode → Out}
    {pl : Place} {o : Out} (ho : f (n.place (.ofChild i)) c = o) : n.onChild c.self f pl =
      some ⟨((n.setSlot (.ofChild i) o.node).handleAll o.node.self o.msgs).1,
        ((n.setSlot (.ofChild i) o.node).handleAll o.node.self o.msgs).2, o.ret⟩ :=
  h.shape.onChild hc ho

/-- Sizes and marks do not matter to a lookup. -/
theorem Findable.touched (h : Findable n) (ht : Touched n n') (hht : n'.ht = n.ht) (hkey : n'.childHasKey = n.childHasKey) :
    Findable n' := by
  refine ⟨?_, ht.expanded.trans h.expanded, h.shape.touched ht, h.indexed.of_same hht ht.childlist ?_ ht.tag, ?_⟩
  · rw [isValid, ht.tag]
    exact h.valid
  · rw [ht.metalist]
    exact h.indexed.metas
  · intro c hc hk
    rw [ht.childlist] at hc
    rw [hkey]
    exact h.keys c hc hk

theorem withTag_touched (ht : Touched n n') : n'.withTag t = n.withTag t := by rw [withTag, withTag, ht.childlist]

theorem Findable.finish (h : Findable n) (o : ℤ) : Findable (n.finish o).node :=
  h.touched (touched_finish n o) (ht_finish n o) (childHasKey_finish n o)

/-- A child is linked. -/
theorem Findable.linkChild (h : Findable n) (c : KnvNode) (atTail : Bool) : Findable (n.linkChild c atTail) := by
  refine ⟨h.valid, h.expanded, shape_linkChild h.shape h.expanded atTail, h.indexed.linkChild h.shape h.valid c atTail, ?_⟩
  intro x hx hk
  refine Bool.or_eq_true_iff.mpr ?_
  rcases mem_linkChild.mp hx with rfl | hx
  · exact .inr (bne_iff_ne.mpr hk)
  · exact .inl (h.keys x hx hk)

theorem withTag_linkChild (n c : KnvNode) : (n.linkChild c true).withTag t =
    n.withTag t ++ if c.tag = t then [c.at' n.slots] else [] := by
  rw [withTag, childlist_linkChild, if_pos rfl, List.filter_append]
  congr 1
  by_cases hct : c.tag = t <;> simp [KnvNode.at', hct]

/-- **An insertion** of a child that can be copied succeeds, and adds the copy. -/
theorem Findable.insertChild {child c : KnvNode} {own : Bool} (h : Findable n) (ht : n.type = .string)
    (hc : child.toLink own = .ok c) (hev : 0 ≤ c.evalSz) (pl : Place) :
    (insertChild child own true pl n).ret = .ok 0 ∧ Findable (insertChild child own true pl n).node ∧
      Touched (n.linkChild c true) (insertChild child own true pl n).node := by
  rw [insertChild_link h.valid ht h.expanded hc hev]
  exact ⟨rfl, (h.linkChild c true).finish _, touched_finish ..⟩

/-- Fewer children. -/
theorem Findable.fewer (h : Findable n) (ht : KnvHt) {cs : List KnvNode} (hsub : cs.Sublist n.childlist)
    (hht : ht.Agrees n.look (cs.map (·.self))) : Findable { n with ht := ht, childlist := cs } := by
  refine ⟨h.valid, h.expanded, h.shape.of_sublist (fun hf => ?_) ((hsub.append (List.Sublist.refl _)).map _) rfl
    h.shape.evaluated, h.indexed.fewer h.shape ht hsub hht, fun c hc => h.keys c (hsub.subset hc)⟩
  exact absurd (h.expanded.symm.trans hf) Bool.noConfusion

/-- **`RemoveChildByPos`**, without a position, takes a child out. -/
theorem Findable.removeChildByPos {c : KnvNode} (h : Findable n) (hc : c ∈ n.childlist) :
    Findable (n.removeChildByPos c.self none).node ∧
      ∀ t, t ≠ c.tag → (n.removeChildByPos c.self none).node.withTag t = n.withTag t := by
  have hfind := find?_self h.shape.nodup_children hc
  have hrem := h.indexed.ht.remove (List.mem_map.mpr ⟨c, hc, rfl⟩ : c.self ∈ n.childAddrs)
  rw [look_child h.shape.nodup_children hc] at hrem
  have hfew := h.fewer (n.ht.remove c.self c.tag c.key.bytes)
    (List.eraseP_sublist : (n.childlist.eraseP fun x => x.self = c.self).Sublist _) ((childAddrs_erase n c.self).symm ▸ hrem)
  refine removeChildByPos_rule (P := fun o => Findable o.node ∧ ∀ t, t ≠ c.tag → o.node.withTag t = n.withTag t)
    ⟨h, fun _ _ => rfl⟩ fun c' hc' o ho => ?_
  cases hfind.symm.trans hc'
  subst ho
  refine ⟨hfew.finish _, fun t ht => (withTag_touched (touched_finish ..)).trans ?_⟩
  obtain ⟨x, l, l', -, hx, hsplit, hrest⟩ :=
    List.exists_of_eraseP (p := fun x => decide (x.self = c.self)) hc (decide_eq_true rfl)
  have hxc : x = c := List.inj_on_of_nodup_map h.shape.nodup_children (hsplit ▸ by simp) hc (of_decide_eq_true hx)
  rw [withTag, withTag, hrest, hsplit, List.filter_append, List.filter_append, List.filter_cons, hxc,
    if_neg (by simpa using ht.symm)]

/-- A child that changes, and tells of it. -/
theorem Findable.hear {c c' : KnvNode} {i : ℕ} {evs : List Ev} (h : Findable n) (hc : n.childlist[i]? = some c)
    (hself : c'.self = c.self) (hkey : c'.key = c.key) (htold : Told c c' evs) :
    Findable ((n.setSlot (.ofChild i) c').handleAll c'.self evs).1 := by
  have ht := touched_handleAll c'.self evs (n.setSlot (.ofChild i) c')
  have hslot : n.slot (.ofChild i) = some c := hc
  have haddrs := addrs_setSlot hslot hself
  refine ⟨?_, ht.expanded.trans h.expanded, ?_, h.indexed.hear h.shape hc hself htold, ?_⟩
  · rw [isValid, ht.tag]
    exact h.valid
  · refine Shape.touched ?_ ht
    exact h.shape.of_sublist (fun hf => absurd (h.expanded.symm.trans hf) Bool.noConfusion)
      (haddrs ▸ List.Sublist.refl _) rfl h.shape.evaluated
  · intro x hx hk
    rw [childHasKey_handleAll]
    rw [ht.childlist, setSlot_ofChild] at hx
    rcases List.mem_or_eq_of_mem_set hx with hx | rfl
    · exact h.keys x hx hk
    · exact h.keys c (List.mem_of_getElem? hc) (hkey ▸ hk)

end KnvNode

end KnvProto
