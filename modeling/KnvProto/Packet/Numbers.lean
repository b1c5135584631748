import KnvProto.Packet.Rooted
import KnvProto.Tree.Marked

/-!
# Numbers in a header

What becomes of a header when `Split` and `EncodePart` write into it: the fields of an
earlier splitting are taken out, the reply is cleared, and the number of the parts and the
index of one of them are set.

The two numbers are children of the header. A header may come from anywhere, so that its
index may miss some of its children, but not one that has just been inserted: it stays at the
head of its bucket (`Finds`), and `SetChild` finds it again.
-/

namespace KnvProto

open PathEdit Chain

namespace KnvNode

/-! ### Headers as they come -/

/-- What is relied on in a header. -/
structure Tidy (n : KnvNode) : Prop where
  shape : Shape n
  /-- A meta is not found under the tag of a child. -/
  metas : ∀ m ∈ n.metalist, m.tag ≤ ucMaxMetaNum

variable {n n' : KnvNode} {tag : UInt32}

theorem Tidy.touched (h : Tidy n) (ht : Touched n n') : Tidy n' := ⟨h.shape.touched ht, ht.metalist ▸ h.metas⟩

theorem Tidy.innerExpand (h : Tidy n) (pk k : Bool) : Tidy (n.innerExpand pk k) := by
  refine ⟨h.shape.innerExpand pk k, ?_⟩
  refine innerExpand_rule (P := fun n' => ∀ m ∈ n'.metalist, m.tag ≤ ucMaxMetaNum) (fun _ => h.metas) fun n' _ hn' => ?_
  cases hn' with
  | leaf _ => exact fun m hm => absurd hm List.not_mem_nil
  | cut _ _ _ => exact fun m hm => absurd hm List.not_mem_nil
  | message _ _ _ _ => exact fun m hm => of_decide_eq_true (List.mem_filter.mp hm).2

theorem Tidy.linkChild (h : Tidy n) (hexp : n.expanded = true) (c : KnvNode) (atTail : Bool) : Tidy (n.linkChild c atTail) :=
  ⟨shape_linkChild h.shape hexp atTail, h.metas⟩

/-- Some of the nodes below are taken out. -/
theorem Tidy.fewer (h : Tidy n) (hexp : n'.expanded = true) (hms : n'.metalist.Sublist n.metalist)
    (hcs : n'.childlist.Sublist n.childlist) (hslots : n'.slots = n.slots) (hsz : n'.evalSz = n.evalSz) : Tidy n' := by
  refine ⟨h.shape.of_sublist (fun hf => ?_) ((hcs.append hms).map _) hslots (hsz ▸ h.shape.evaluated),
    fun m hm => h.metas m (hms.subset hm)⟩
  exact absurd (hexp.symm.trans hf) Bool.noConfusion

/-- The children with a tag are taken out. -/
theorem Tidy.removeChildrenByTag (h : Tidy n) (hv : n.isValid = true) (t : UInt32) (pl : Place) :
    Tidy (n.removeChildrenByTag t pl).node ∧ (n.removeChildrenByTag t pl).node.expanded = true ∧
      (n.removeChildrenByTag t pl).node.childlist = (n.innerExpand pl.parentKeyed false).childlist.filter fun c =>
      c.tag ≠ t := by
  have hexp := innerExpand_expanded pl.parentKeyed false n
  have htidy := h.innerExpand pl.parentKeyed false
  unfold KnvNode.removeChildrenByTag
  rw [if_neg (by simp [hv])]
  generalize n.innerExpand pl.parentKeyed false = n' at hexp htidy ⊢
  simp only
  by_cases hnil : (n'.childlist.filter fun c => c.tag = t).isEmpty = true
  · rw [if_pos hnil]
    refine ⟨htidy, hexp, (List.filter_eq_self.mpr fun c hc => ?_).symm⟩
    have hnone := List.filter_eq_nil_iff.mp (List.isEmpty_iff.mp hnil) c hc
    simpa using hnone
  · rw [if_neg hnil]
    have hrem : Tidy { n' with
        ht := (n'.childlist.filter fun c => c.tag = t).foldl
          (fun ht (c : KnvNode) => ht.remove c.self c.tag c.key.bytes) n'.ht
        childlist := n'.childlist.filter fun c => c.tag ≠ t } :=
      htidy.fewer hexp (List.Sublist.refl _) List.filter_sublist rfl rfl
    exact ⟨hrem.touched (touched_finish ..), (touched_finish ..).expanded.trans hexp, (touched_finish ..).childlist⟩

/-! ### Metas -/

/-- The children and their index stay. -/
structure Beside (n n' : KnvNode) : Prop where
  self : n'.self = n.self
  tag : n'.tag = n.tag
  type : n'.type = n.type
  expanded : n'.expanded = n.expanded
  ht : n'.ht = n.ht
  childHasKey : n'.childHasKey = n.childHasKey
  childlist : n'.childlist = n.childlist
  fits : SizeFits n → SizeFits n'

theorem Beside.refl (n : KnvNode) : Beside n n := ⟨rfl, rfl, rfl, rfl, rfl, rfl, rfl, id⟩

theorem Beside.trans {n'' : KnvNode} (h : Beside n n') (h' : Beside n' n'') : Beside n n'' :=
  ⟨h'.self.trans h.self, h'.tag.trans h.tag, h'.type.trans h.type, h'.expanded.trans h.expanded, h'.ht.trans h.ht,
    h'.childHasKey.trans h.childHasKey, h'.childlist.trans h.childlist, fun hn => h'.fits (h.fits hn)⟩

/-- A size that is changed is computed anew. -/
theorem sizeFits_finish (h : 0 ≤ n.evalSz) {o : ℤ} (ho : o ≠ 0) : SizeFits (n.finish o).node := by
  have heq : (n.finish o).node = (n.updateEvalSz o).1.setValueDirty := by
    unfold KnvNode.finish
    simp only [if_pos h]
  rw [heq]
  unfold KnvNode.updateEvalSz
  rw [if_neg ho]
  intro ht
  have ht' : n.type = .string := ht
  simp only [setValueDirty, ht', pbEvalLength_string n.tag 0 (UInt64.ofNat (n.evalValSz + o).toNat)]

theorem beside_finish (n : KnvNode) (o : ℤ) : Beside n (n.finish o).node :=
  ⟨(touched_finish n o).self, (touched_finish n o).tag, (touched_finish n o).type, (touched_finish n o).expanded,
    ht_finish n o,
    childHasKey_finish n o, (touched_finish n o).childlist, fun h => h.finish o⟩

/-- A function that ends with a change of the sizes. -/
theorem Beside.finish (h : Beside n n') (o : ℤ) : Beside n (n'.finish o).node := h.trans (beside_finish n' o)

/-- What is added to the size of the value, is added. -/
theorem evalValSz_finish (h : 0 ≤ n.evalSz) (o : ℤ) : (n.finish o).node.evalValSz = n.evalValSz + o := by
  unfold finish updateEvalSz
  simp only [if_pos h]
  split
  · next ho => rw [ho, Int.add_zero]; rfl
  · rfl

/-- A meta is set. -/
theorem Tidy.setMetaInner (h : Tidy n) (hexp : n.expanded = true) (tag : UInt32) (type : PbType) (data : Option PbVal)
    (pl : Place) : Tidy (n.setMetaInner tag type data true pl).node ∧
    Beside n (n.setMetaInner tag type data true pl).node := by
  refine setMetaInner_rule (P := fun o => Tidy o.node ∧ Beside n o.node) (fun _ _ => ⟨h, .refl n⟩) fun _ _ htag n' hn' => ?_
  rw [innerExpand_of_expanded hexp] at hn'
  subst hn'
  refine ⟨fun m hm => ?_, fun _ => ?_⟩
  · have hmem := metaAt_mem hm
    have hset : Tidy (n'.setMetaNode (m.overwrite tag type data (!n'.noKey && tag == 1))) := by
      refine ⟨h.shape.of_sublist (fun hf => absurd (hexp.symm.trans hf) Bool.noConfusion)
        ((addrs_setMetaNode ..).symm ▸ List.Sublist.refl _) rfl h.shape.evaluated, fun x hx => ?_⟩
      obtain ⟨y, hy, rfl⟩ := List.mem_map.mp hx
      split
      · rw [overwrite_eq]
        have htag' := h.metas m hmem
        split <;> exact htag'
      · exact h.metas y hy
    have hbeside : Beside n' (n'.setMetaNode (m.overwrite tag type data (!n'.noKey && tag == 1))) :=
      ⟨rfl, rfl, rfl, rfl, rfl, rfl, rfl, id⟩
    exact ⟨hset.touched (touched_finish ..), hbeside.finish _⟩
  · have hadd : Tidy (n'.addMetaNode tag type data) := by
      refine ⟨shape_addMetaNode h.shape hexp .., fun x hx => ?_⟩
      have hx' : x ∈ n'.metalist ∨ x = (initNode tag type data true 0 true).at' n'.slots := by
        simp only [KnvNode.addMetaNode] at hx
        split at hx <;> simpa [or_comm] using hx
      rcases hx' with hx | rfl
      · exact h.metas x hx
      · exact htag
    have hbeside : Beside n' (n'.addMetaNode tag type data) := ⟨rfl, rfl, rfl, rfl, rfl, rfl, rfl, id⟩
    exact ⟨hadd.touched (touched_finish ..), hbeside.finish _⟩

/-- What taking out the metas with a tag adds to the size of the value. -/
def metaOffset (tag : UInt32) (n : KnvNode) : ℤ :=
  if n.metalist.isEmpty || (n.metas tag).isNone then 0
  else -((n.metalist.filter fun m => m.tag = tag).map (·.evaluateSize.evalSz)).sum

theorem metaOffset_congr (hms : n'.metalist = n.metalist) (hm : n'.metas = n.metas) (tag : UInt32) :
    metaOffset tag n' = metaOffset tag n := by
  rw [metaOffset, metaOffset, hms, hm]

/-- The metas with a tag are taken out. -/
theorem Tidy.removeMetaByTag (h : Tidy n) (hv : n.isValid = true) (hexp : n.expanded = true) (htag : tag ≤ ucMaxMetaNum)
    (hone : tag ≠ 1) (pl : Place) : (n.removeMetaByTag tag pl).ret = .ok 0 ∧ Tidy (n.removeMetaByTag tag pl).node ∧
      Beside n (n.removeMetaByTag tag pl).node ∧
      (n.removeMetaByTag tag pl).node.evalValSz = n.evalValSz + metaOffset tag n := by
  unfold KnvNode.removeMetaByTag metaOffset
  rw [if_neg (by simp [hv]), if_neg (UInt32.not_lt.mpr htag), innerExpand_of_expanded hexp]
  simp only
  by_cases hnone : (n.metalist.isEmpty || (n.metas tag).isNone) = true
  · rw [if_pos hnone, if_pos hnone]
    exact ⟨rfl, h, .refl n, (Int.add_zero _).symm⟩
  · rw [if_neg hnone, if_neg hnone]
    have hkey : (!n.noKey && tag == 1) = false := by simp [hone]
    simp only [hkey, Bool.false_eq_true, if_false, if_pos h.shape.evaluated]
    generalize hfew : ({ n with
        metalist := n.metalist.filter fun m => m.tag ≠ tag
        metas := fun t => if t = tag then none else n.metas t } : KnvNode) = few
    have hrem : Tidy few := hfew ▸ h.fewer hexp List.filter_sublist (List.Sublist.refl _) rfl rfl
    have hbeside : Beside n few := hfew ▸ ⟨rfl, rfl, rfl, rfl, rfl, rfl, rfl, id⟩
    refine ⟨trivial, hrem.touched (touched_finish ..), hbeside.finish _, ?_⟩
    rw [evalValSz_finish hrem.shape.evaluated, ← hfew]

/-! ### Children -/

/-- A child without a key that is the only one with its tag, at the head of its bucket. -/
structure Finds (n c : KnvNode) : Prop where
  mem : c ∈ n.childlist
  only : ∀ x ∈ n.childlist, x.tag = c.tag → x = c
  key : c.key.bytes = []
  chain : ∃ l, n.ht.chain (getKeyhash c.tag [] n.ht.sz) = c.self :: l

variable {c c' : KnvNode} {i : ℕ}

/-- Such a child is found. -/
theorem Finds.find (h : Finds n c) (hs : Shape n) (hv : n.isValid = true) (hexp : n.expanded = true) (pl : Place) :
    n.findChildByTag c.tag pl = (n, some c.self) := by
  unfold findChildByTag
  rw [if_neg (by simp [hv]), innerExpand_of_expanded hexp]
  simp only [Prod.mk.injEq, true_and]
  have hpos : ¬n.childNum ≤ 0 := by
    have hlen := List.length_pos_of_mem h.mem
    simp only [childNum, hexp, if_true]
    omega
  rw [if_neg hpos]
  split
  · -- by the list
    obtain ⟨x, hx⟩ := Option.isSome_iff_exists.mp
      (List.find?_isSome (p := fun x : KnvNode => x.tag = c.tag).mpr ⟨c, h.mem, decide_eq_true rfl⟩)
    have htag := List.find?_some (show List.find? _ _ = some x from hx)
    rw [hx, h.only x (List.mem_of_find?_eq_some hx) (of_decide_eq_true htag)]
    rfl
  · -- by the index
    obtain ⟨l, hl⟩ := h.chain
    have hlook : n.look c.self = (c.tag, []) := by rw [look_child hs.nodup_children h.mem, h.key]
    rw [KnvHt.get, hl, List.find?_cons_of_pos (by exact decide_eq_true hlook)]

/-- A child that has just been linked is found. -/
theorem finds_linkChild (hs : Shape n) (hexp : n.expanded = true) (hkey : c.key.bytes = [])
    (hnone : ∀ x ∈ n.childlist, x.tag ≠ c.tag) : Finds (n.linkChild c true) (c.at' n.slots) := by
  have hlist : (n.linkChild c true).childlist = n.childlist ++ [c.at' n.slots] := by rw [childlist_linkChild, if_pos rfl]
  have hmem : c.at' n.slots ∈ (n.linkChild c true).childlist := hlist ▸ List.mem_append_right _ (List.mem_singleton_self _)
  refine ⟨hmem, fun x hx htag => ?_, hkey, ?_⟩
  · rcases List.mem_append.mp (hlist ▸ hx) with hx | hx
    · exact absurd htag (hnone x hx)
    · exact List.mem_singleton.mp hx
  · have hlook : (n.linkChild c true).look n.slots = (c.tag, c.key.bytes) :=
      look_child (shape_linkChild hs hexp true).nodup_children hmem
    obtain ⟨l, hl⟩ := KnvHt.chain_put n.ht (n.linkChild c true).look n.slots
    rw [hlook, hkey] at hl
    exact ⟨l, hl⟩

/-- The metas do not matter. -/
theorem Finds.beside (h : Finds n c) (hb : Beside n n') : Finds n' c :=
  ⟨hb.childlist ▸ h.mem, hb.childlist ▸ h.only, h.key, hb.ht ▸ h.chain⟩

/-- A child that changes, but not what it is found by. -/
theorem Finds.set (h : Finds n c) (hs : Shape n) (hc : n.childlist[i]? = some c) (hself : c'.self = c.self)
    (htag : c'.tag = c.tag) (hkey : c'.key = c.key) (hlist : n'.childlist = n.childlist.set i c') (hht : n'.ht = n.ht) :
    Finds n' c' := by
  obtain ⟨hi, hci⟩ := List.getElem?_eq_some_iff.mp hc
  refine ⟨hlist ▸ List.mem_set hi _, fun x hx hxt => ?_, hkey ▸ h.key, by rw [hht, htag, hself]; exact h.chain⟩
  rw [hlist] at hx
  obtain ⟨j, hj, rfl⟩ := List.getElem_of_mem hx
  by_cases hij : i = j
  · subst hij
    exact List.getElem_set_self ..
  · rw [List.getElem_set_ne hij] at hxt ⊢
    have hjlt : j < n.childlist.length := by simpa using hj
    have heq : n.childlist[j] = n.childlist[i] := (h.only _ (List.getElem_mem hjlt) (hxt.trans htag)).trans hci.symm
    exact absurd (hs.index_of_self hi hjlt (congrArg (·.self) heq.symm)) hij

/-! ### A number among the children -/

/-- A number, as a child. -/
def number (tag : UInt32) (v : UInt64) : KnvNode := initNode tag .varint (some { i64 := v })

theorem evalSz_number (tag : UInt32) (v : UInt64) : (number tag v).evalSz = pbEvalFieldLength tag .varint { i64 := v } := by
  simp [number, initNode, PbVal.pick]

/-- `SetChild` of a tag that no child has. -/
theorem setChild_absent (h : Tidy n) (hv : n.isValid = true) (hexp : n.expanded = true) (htag : ucMaxMetaNum < tag)
    (hnone : ∀ x ∈ n.childlist, x.tag ≠ tag) (v : UInt64) (pl : Place) : n.setChild tag .varint { i64 := v } pl =
      { insertChild (number tag v) true true pl n with
        ret := (insertChild (number tag v) true true pl n).ret.mapError fun e => ⟨-3, e.errmsg⟩ } := by
  obtain ⟨r, hr, hfound⟩ := find_sound hv hexp h.metas htag pl
  have hzero : tag ≠ 0 := fun h0 => absurd htag (by rw [h0]; decide)
  unfold setChild
  rw [hr]
  cases r with
  | some a =>
    obtain ⟨x, hx, -, hxt⟩ := hfound a rfl
    exact absurd hxt (hnone x hx)
  | none =>
    simp only [Option.bind_none, insertNew, new, if_neg hzero]
    rfl

/-- Where it succeeds, it inserts the number. -/
theorem Tidy.addNumber (h : Tidy n) (hv : n.isValid = true) (hexp : n.expanded = true) (htag : ucMaxMetaNum < tag)
    (hnone : ∀ x ∈ n.childlist, x.tag ≠ tag) (v : UInt64) (pl : Place) :
    (n.type = .string → (n.setChild tag .varint { i64 := v } pl).ret = .ok 0) ∧
      ∀ r, (n.setChild tag .varint { i64 := v } pl).ret = .ok r → n.type = .string ∧
        (n.setChild tag .varint { i64 := v } pl).node =
        ((n.linkChild (number tag v) true).finish (number tag v).evalSz).node := by
  have hsz : 0 ≤ (number tag v).evalSz := evalSz_number tag v ▸ Int.natCast_nonneg _
  rw [setChild_absent h hv hexp htag hnone]
  refine ⟨fun ht => by rw [insertChild_own hv ht hexp hsz]; rfl, fun r hr => ?_⟩
  have hok : ∃ r, (insertChild (number tag v) true true pl n).ret = .ok r := by
    cases hi : (insertChild (number tag v) true true pl n).ret with
    | ok r => exact ⟨r, rfl⟩
    | error e =>
      rw [hi] at hr
      cases hr
  obtain ⟨r', hr'⟩ := hok
  obtain ⟨-, ht, -⟩ := insertChild_ok hr'
  exact ⟨ht, by rw [insertChild_own hv ht hexp hsz]⟩

/-- `SetChild` of a number that is found. -/
theorem setChild_found (hf : Finds n c) (hs : Shape n) (hv : n.isValid = true) (hexp : n.expanded = true)
    (hc : n.childlist[i]? = some c) (hcv : c.isValid = true) (htype : c.type = .varint) (v : UInt64) (pl : Place) :
    ∃ c', c' = { c with
        val := { i64 := v }
        evalSz := pbEvalFieldLength c.tag .varint { i64 := v }
        evalValSz := 0
        subnodeDirty := true } ∧
      (n.setChild c.tag .varint { i64 := v } pl).ret = .ok 0 ∧
      (n.setChild c.tag .varint { i64 := v } pl).node =
        ((n.setSlot (.ofChild i) c').handle c.self (updateParent (c'.evalSz - c.evalSz))).1 := by
  have hset : c.setValue .varint { i64 := v } = ⟨{ c with
      val := { i64 := v }
      evalSz := pbEvalFieldLength c.tag .varint { i64 := v }
      evalValSz := 0
      subnodeDirty := true }, [updateParent (pbEvalFieldLength c.tag .varint { i64 := v } - c.evalSz)], .ok 0⟩ := by
    unfold setValue setValueInt
    simp [hcv, htype]
  have hfind := find?_self hs.nodup_children hf.mem
  have hchild := @Shape.onChild n c i hs hc (fun _ c => c.setValue .varint { i64 := v }) pl _ hset
  refine ⟨_, rfl, ?_⟩
  unfold setChild
  rw [hf.find hs hv hexp]
  simp only [Option.bind_some, hfind, htype, hchild]
  simp [handleAll, Except.mapError]

/-- A change of the size that a node hears of. -/
theorem handle_updateParent (hsz : 0 ≤ n.evalSz) (a : ℕ) (o : ℤ) : Beside n (n.handle a (updateParent o)).1 ∧
    (n.handle a (updateParent o)).1.evalValSz = n.evalValSz + o := by
  have ht := touched_handle a n (updateParent o)
  have hht : (n.handle a (updateParent o)).1.ht = n.ht ∧ (n.handle a (updateParent o)).1.evalValSz = n.evalValSz + o := by
    simp only [updateParent, handle_update, Bool.true_or, if_true]
    have hdirty : ∀ m : KnvNode, (m.turnDirty true).1.ht = m.ht ∧ (m.turnDirty true).1.evalValSz = m.evalValSz := by
      intro m
      unfold turnDirty
      rw [if_pos rfl]
      split <;> exact ⟨rfl, rfl⟩
    rw [(hdirty _).1, (hdirty _).2]
    by_cases ho : o = 0
    · subst ho
      simp [turnEval]
    · simp [turnEval, updateEvalSz, ho, Int.not_lt.mpr hsz]
  exact ⟨⟨ht.self, ht.tag, ht.type, ht.expanded, hht.1, childHasKey_handle .., ht.childlist, fun h =>
    h.handle a (updateParent o)⟩, hht.2⟩

/-! ### The header of a part -/

/-- The length of a number in a header. -/
def numberSize (tag : UInt32) (v : UInt64) : ℕ := pbEvalFieldLength tag .varint { i64 := v }

/-- A header with the number of the parts: the size of its value is `v` without an index. -/
structure Numbered (v : ℤ) (h : KnvNode) : Prop where
  tidy : Tidy h
  tag : h.tag = knvPkgHdrTag
  type : h.type = .string
  expanded : h.expanded = true
  fits : SizeFits h
  index : (h.evalValSz = v ∧ ∀ c ∈ h.childlist, c.tag ≠ knvPkgHdrCurrSplitIndex) ∨
    ∃ c, Finds h c ∧ c.tag = knvPkgHdrCurrSplitIndex ∧ c.type = .varint ∧ h.evalValSz = v + c.evalSz

variable {v : ℤ}

theorem isValid_of_tag (h : n.tag = tag) (hzero : tag ≠ 0) : n.isValid = true := by
  rw [isValid, h]
  exact bne_iff_ne.mpr hzero

theorem Numbered.valid (h : Numbered v n) : n.isValid = true := isValid_of_tag h.tag (by decide)

/-- A node with a new child. -/
theorem linked_number (h : Tidy n) (hexp : n.expanded = true) (hnone : ∀ x ∈ n.childlist, x.tag ≠ tag) (w : UInt64) :
    ∃ c, Finds ((n.linkChild (number tag w) true).finish (number tag w).evalSz).node c ∧ c.tag = tag ∧ c.type = .varint ∧
      c.evalSz = numberSize tag w ∧ Tidy ((n.linkChild (number tag w) true).finish (number tag w).evalSz).node ∧
      SizeFits ((n.linkChild (number tag w) true).finish (number tag w).evalSz).node ∧
      ((n.linkChild (number tag w) true).finish (number tag w).evalSz).node.evalValSz = n.evalValSz + numberSize tag w := by
  have hpos : 0 < (number tag w).evalSz := by
    have := pbEvalLength_pos tag .varint w 0
    rw [evalSz_number]
    exact Int.natCast_pos.mpr this
  refine ⟨(number tag w).at' n.slots, (finds_linkChild h.shape hexp rfl hnone).beside (beside_finish ..), rfl, rfl,
    evalSz_number tag w, (h.linkChild hexp _ true).touched (touched_finish ..), ?_, ?_⟩
  · exact sizeFits_finish (n := n.linkChild (number tag w) true) h.shape.evaluated (by omega)
  · rw [evalValSz_finish (n := n.linkChild (number tag w) true) h.shape.evaluated, evalSz_number]
    rfl

/-- **The number of the parts** is set. -/
theorem numbered_setCount (h : Tidy n) (htag : n.tag = knvPkgHdrTag) (hexp : n.expanded = true)
    (hnone : ∀ x ∈ n.childlist, x.tag ≠ knvPkgHdrTotalSplitCount ∧ x.tag ≠ knvPkgHdrCurrSplitIndex) {w : UInt64} {pl : Place}
    {r : ℕ} (hr : (n.setChild knvPkgHdrTotalSplitCount .varint { i64 := w } pl).ret = .ok r) :
    Numbered (n.evalValSz + numberSize knvPkgHdrTotalSplitCount w)
        (n.setChild knvPkgHdrTotalSplitCount .varint { i64 := w } pl).node ∧
      (n.setChild knvPkgHdrTotalSplitCount .varint { i64 := w } pl).node.metalist = n.metalist ∧
      (n.setChild knvPkgHdrTotalSplitCount .varint { i64 := w } pl).node.metas = n.metas := by
  have hv : n.isValid = true := isValid_of_tag htag (by decide)
  obtain ⟨-, hadd⟩ := h.addNumber hv hexp (by decide) (fun x hx => (hnone x hx).1) w pl
  obtain ⟨htype, hnode⟩ := hadd r hr
  rw [hnode]
  obtain ⟨c, hf, hct, -, -, htidy, hfits, hsz⟩ := linked_number h hexp (fun x hx => (hnone x hx).1) w
  have ht := touched_finish (n.linkChild (number knvPkgHdrTotalSplitCount w) true) (number knvPkgHdrTotalSplitCount w).evalSz
  refine ⟨⟨htidy, ht.tag.trans htag, ht.type.trans htype, ht.expanded.trans hexp, hfits, .inl ⟨hsz, fun x hx hxt => ?_⟩⟩,
    ht.metalist, ht.metas⟩
  rw [ht.childlist, childlist_linkChild, if_pos rfl] at hx
  rcases List.mem_append.mp hx with hx | hx
  · exact (hnone x hx).2 hxt
  · have htag' : x.tag = knvPkgHdrTotalSplitCount := by rw [List.mem_singleton.mp hx]; rfl
    exact absurd (htag'.symm.trans hxt) (by decide)

/-- **The index** of a part is set, again or for the first time. -/
theorem Numbered.setIndex (h : Numbered v n) (w : UInt64) (pl : Place) :
    (n.setChild knvPkgHdrCurrSplitIndex .varint { i64 := w } pl).ret = .ok 0 ∧
      Numbered v (n.setChild knvPkgHdrCurrSplitIndex .varint { i64 := w } pl).node ∧
      (n.setChild knvPkgHdrCurrSplitIndex .varint { i64 := w } pl).node.metalist = n.metalist ∧
      (n.setChild knvPkgHdrCurrSplitIndex .varint { i64 := w } pl).node.metas = n.metas ∧
      (n.setChild knvPkgHdrCurrSplitIndex .varint { i64 := w } pl).node.evalValSz =
      v + numberSize knvPkgHdrCurrSplitIndex w := by
  rcases h.index with ⟨hsz, hnone⟩ | ⟨c, hf, htag, htype, hsz⟩
  · -- there is none yet
    obtain ⟨hok, hadd⟩ := h.tidy.addNumber h.valid h.expanded (by decide) hnone w pl
    obtain ⟨-, hnode⟩ := hadd 0 (hok h.type)
    rw [hnode]
    obtain ⟨c, hf, hct, hctype, hcsz, htidy, hfits, hval⟩ := linked_number h.tidy h.expanded hnone w
    have ht := touched_finish (n.linkChild (number knvPkgHdrCurrSplitIndex w) true) (number knvPkgHdrCurrSplitIndex w).evalSz
    have hval' := hval.trans (congrArg (· + _) hsz)
    exact ⟨hok h.type, ⟨htidy, ht.tag.trans h.tag, ht.type.trans h.type, ht.expanded.trans h.expanded, hfits,
      .inr ⟨c, hf, hct, hctype, by rw [hval', hcsz]⟩⟩, ht.metalist, ht.metas, hval'⟩
  · -- it is found
    obtain ⟨i, hi⟩ := List.getElem?_of_mem hf.mem
    obtain ⟨c', hc', hok, hnode⟩ := setChild_found hf h.tidy.shape h.valid h.expanded hi
      (isValid_of_tag htag (by decide)) htype w pl
    rw [htag] at hok hnode
    rw [hnode]
    have hself : c'.self = c.self := by rw [hc']
    have hctag : c'.tag = c.tag := by rw [hc']
    have hkey : c'.key = c.key := by rw [hc']
    have hcsz : c'.evalSz = numberSize knvPkgHdrCurrSplitIndex w := by rw [hc', htag]; rfl
    have hctype : c'.type = .varint := by rw [hc']; exact htype
    have hslot : Tidy (n.setSlot (.ofChild i) c') := by
      refine ⟨h.tidy.shape.of_sublist (fun hf => absurd (h.expanded.symm.trans hf) Bool.noConfusion) ?_ rfl
        h.tidy.shape.evaluated, h.tidy.metas⟩
      rw [addrs_setSlot (s := .ofChild i) hi hself]
    obtain ⟨hb, hval⟩ := handle_updateParent hslot.shape.evaluated c.self (c'.evalSz - c.evalSz)
    have ht := touched_handle c.self (n.setSlot (.ofChild i) c') (updateParent (c'.evalSz - c.evalSz))
    have hset : Finds (n.setSlot (.ofChild i) c') c' := hf.set h.tidy.shape hi hself hctag hkey rfl rfl
    have hfind := hset.beside hb
    have hsum : (n.setSlot (.ofChild i) c').evalValSz + (c'.evalSz - c.evalSz) = v + c'.evalSz := by
      have hsz' : (n.setSlot (.ofChild i) c').evalValSz = v + c.evalSz := hsz
      omega
    exact ⟨hok, ⟨hslot.touched ht, ht.tag.trans h.tag, ht.type.trans h.type, ht.expanded.trans h.expanded, hb.fits h.fits,
      .inr ⟨c', hfind, hctag.trans htag, hctype, hval.trans hsum⟩⟩, ht.metalist, ht.metas,
        (hval.trans hsum).trans (by rw [hcsz])⟩

/-- A change of the metas. -/
theorem Numbered.beside (h : Numbered v n) (htidy : Tidy n') (hb : Beside n n') {o : ℤ}
    (hsz : n'.evalValSz = n.evalValSz + o) : Numbered (v + o) n' := by
  refine ⟨htidy, hb.tag.trans h.tag, hb.type.trans h.type, hb.expanded.trans h.expanded, hb.fits h.fits, ?_⟩
  rcases h.index with ⟨hval, hnone⟩ | ⟨c, hf, htag, htype, hval⟩
  · exact .inl ⟨by rw [hsz, hval], hb.childlist ▸ hnone⟩
  · exact .inr ⟨c, hf.beside hb, htag, htype, by rw [hsz, hval]; omega⟩

/-- What such a header is evaluated to. -/
theorem Numbered.evalSz (h : Numbered v n) :
    n.evaluateSize.evalSz = pbEvalLength knvPkgHdrTag .string 0 n.evalValSz.toNat := by
  rw [evaluateSize_of_nonneg h.tidy.shape.evaluated, h.fits h.type, h.tag]

end KnvNode

end KnvProto
