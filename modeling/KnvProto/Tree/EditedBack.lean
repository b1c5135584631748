import KnvProto.Tree.Rewritten

/-!
# What is edited is written back

`New` from bytes, any number of lookups, one edit below: `SetValue` of a number, `InsertIntLeaf`,
`RemoveChildrenByTag` or `SetMetaInt` of a meta that is no key. The tree is written, and what is written is read
back as the tree (`writtenBack_of_run`), if the nodes that are written again have nothing beside them that the decoder
takes and the encoder would write otherwise.

## The model

An edit runs on the node at a path (`TreeEdit.runAt`) and changes that node alone (`Changed`). `Fits` is what is asked
of the node that is edited, `FitsAt` of the nodes from the root to it.
-/

namespace KnvProto

open PathEdit

/-! ### Edits -/

/-- The functions that edit a node. -/
inductive TreeEdit where
  /-- `SetValue(int_val)`. -/
  | setValue (v : UInt64)
  /-- `InsertIntLeaf`. -/
  | insertIntLeaf (tag : UInt32) (v : UInt64)
  /-- `RemoveChildrenByTag`. -/
  | removeChildrenByTag (tag : UInt32)
  /-- `SetMetaInt`. -/
  | setMetaInt (tag : UInt32) (v : UInt64)

namespace TreeEdit

open KnvNode

/-- Run an edit on a node at its place. -/
def run : TreeEdit → Place → KnvNode → Out
  | setValue v, _, n => n.setValueInt v
  | insertIntLeaf t v, pl, n => n.insertIntLeaf t v pl
  | removeChildrenByTag t, pl, n => n.removeChildrenByTag t pl
  | setMetaInt t v, pl, n => n.setMeta t .varint (some { i64 := v }) pl

/-- Run an edit on the node at a path. -/
def runAt (e : TreeEdit) (path : List Slot) (root : KnvNode) : Option Out := editAt hanging e.run path {} root

/-- `SetMetaInt` is not used for the key. -/
def KeepsKey : TreeEdit → Prop
  | setMetaInt t _ => 2 ≤ t ∧ t ≤ ucMaxMetaNum
  | _ => True

/-- What an edit does to a node that has been expanded. -/
def Did : TreeEdit → KnvNode → KnvNode → Prop
  | setValue v, q, m => m.val = { i64 := v } ∧ m.metalist = q.metalist ∧ m.childlist = q.childlist
  | insertIntLeaf t v, q, m => m.metalist = q.metalist ∧
      ∃ x, m.childlist = q.childlist ++ [x] ∧ x.tag = t ∧ x.type = .varint ∧ x.val = { i64 := v }
  | removeChildrenByTag t, q, m => m.metalist = q.metalist ∧ m.childlist = q.childlist.filter fun c => c.tag ≠ t
  | setMetaInt t v, q, m => m.childlist = q.childlist ∧
      ∃ x : KnvNode, x.tag = t ∧ x.type = .varint ∧ x.val = { i64 := v } ∧ m.metalist = match q.metaAt t with
        | some y => q.metalist.map fun z => if z.self = y.self then x else z
        | none => q.metalist ++ [x]

/-- What an edit at a path does to a tree: every node that is not on the path stays as it is. -/
def Changed (e : TreeEdit) : List Slot → Place → KnvNode → KnvNode → Prop
  | [], pl, n, m => m.tag = n.tag ∧ m.type = n.type ∧ m.key = n.key ∧ e.Did (n.innerExpand pl.parentKeyed false) m
  | s :: path, _, n, m => m.tag = n.tag ∧ m.type = n.type ∧ m.key = n.key ∧
      ∃ c c', n.slot s = some c ∧ m.metalist = (n.setSlot s c').metalist ∧ m.childlist = (n.setSlot s c').childlist ∧
        e.Changed path (n.place s) c c'

/-- How many bytes the lists of a node grow by. -/
def offset : TreeEdit → KnvNode → ℤ
  | setValue _, _ => 0
  | insertIntLeaf t v, _ => metaSize t .varint (some { i64 := v })
  | removeChildrenByTag t, q => -((q.childlist.filter fun c => c.tag = t).map (·.evalSz)).sum
  | setMetaInt t v, q => metaSize t .varint (some { i64 := v }) - ((q.metaAt t).map (·.evalSz)).getD 0

/-- The nodes below that an edit leaves as they are. -/
def stay : TreeEdit → KnvNode → List KnvNode
  | removeChildrenByTag t, q => q.metalist ++ q.childlist.filter fun c => c.tag ≠ t
  | setMetaInt t _, q => (q.metalist.filter fun x => (q.metaAt t).map (·.self) ≠ some x.self) ++ q.childlist
  | _, q => q.metalist ++ q.childlist

/-- How many bytes a node grows by. -/
def growth : TreeEdit → Place → KnvNode → ℤ
  | setValue v, _, n => pbEvalFieldLength n.tag n.type { i64 := v } - n.evalSz
  | e, pl, n => (n.updateEvalSz (e.offset (n.innerExpand pl.parentKeyed false))).2

/-- How many bytes a node grows by when a node below it is edited. -/
def growthAt (e : TreeEdit) : List Slot → Place → KnvNode → ℤ
  | [], pl, n => e.growth pl n
  | s :: path, _, n => match n.slot s with
    | some c => (n.updateEvalSz (e.growthAt path (n.place s) c)).2
    | none => 0

/-- There is nothing to remove. -/
def Idle (e : TreeEdit) (pl : Place) (n : KnvNode) : Prop :=
  ∃ t, e = removeChildrenByTag t ∧ ∀ c ∈ (n.innerExpand pl.parentKeyed false).childlist, c.tag ≠ t

/-- What is asked of the node that is edited. -/
def Fits (e : TreeEdit) (pl : Place) (n : KnvNode) : Prop :=
  let q := n.innerExpand pl.parentKeyed false
  match e with
  | setValue _ => TagOk n.tag
  | insertIntLeaf t _ => ChildTag t ∧ Rewrites pl q (e.stay q) (e.offset q)
  | removeChildrenByTag t => (∃ c ∈ q.childlist, c.tag = t) ∧ Rewrites pl q (e.stay q) (e.offset q)
  | setMetaInt _ _ => Rewrites pl q (e.stay q) (e.offset q)

/-- What is asked of the nodes from here to the one that is edited. -/
def FitsAt (e : TreeEdit) : List Slot → Place → KnvNode → Prop
  | [], pl, n => e.Fits pl n
  | s :: path, pl, n => ∃ c, n.slot s = some c ∧ e.FitsAt path (n.place s) c ∧
      Rewrites pl n (n.beside s) (e.growthAt path (n.place s) c)

variable {e : TreeEdit} {n m q : KnvNode} {pl : Place} {pk : Bool} {t : UInt32} {v : UInt64} {r : ℕ}

/-! #### One node -/

/-- A node whose lists have been changed. -/
theorem resized_finish {stay : List KnvNode} {d : ℤ} (hn : Looked pl.parentKeyed pl.isMeta n) (ht : n.type = .string)
    (hl : Relisted pl (n.innerExpand pl.parentKeyed false) m d)
    (h : Rewrites pl (n.innerExpand pl.parentKeyed false) stay d) : Resized pl n (m.finish d) (n.updateEvalSz d).2 := by
  have hq := hn.innerExpand
  have hsame := expandSame pl.parentKeyed false n
  have hexp := innerExpand_expanded pl.parentKeyed false n
  have htag := hl.tag.trans hsame.tag
  have hsz := hl.evalSz.trans hsame.evalSz
  have hsnd := updateEvalSz_congr htag (hl.type.trans hsame.type) hsz (hl.evalValSz.trans hsame.evalValSz) d
  have hfin : m.finish d = ⟨(m.updateEvalSz d).1.setValueDirty, [updateParent (m.updateEvalSz d).2], .ok 0⟩ := by
    unfold finish
    rw [if_pos (hsz ▸ Int.le_of_lt hn.here.pos)]
  rw [hfin]
  refine ⟨?_, ?_, ⟨_, by rw [hsnd]; rfl, fun hne => ?_⟩, hl.reads h hq (hsame.type.trans ht) hexp⟩
  · exact ((touched_updateEvalSz m d).trans (touched_setValueDirty _)).tag.trans htag
  · show (m.updateEvalSz d).1.evalSz = _
    rw [updateEvalSz_size, hsnd, hsz]
  · exact bne_iff_ne.mpr hne

/-- What stays is written and read back. -/
theorem reads_of_stay {stay : List KnvNode} {d : ℤ} {x : KnvNode} {b : Bool} (h : Rewrites pl q stay d) (hx : x ∈ stay)
    (hlook : Looked (q.key.bytes != []) b x) : ∃ f, Reads (q.key.bytes != []) b x f :=
  ⟨_, hlook.reads (h.minimal x hx)⟩

theorem resized_setValue (hn : Looked pl.parentKeyed pl.isMeta n) (hret : (n.setValueInt v).ret = .ok r)
    (htag : TagOk n.tag) : Resized pl n (n.setValueInt v) (pbEvalFieldLength n.tag n.type { i64 := v } - n.evalSz) := by
  revert hret
  refine setValueInt_rule (P := fun o => o.ret = .ok r → Resized pl n o _) (fun _ he => by cases he) fun _ ht _ => ?_
  have hp := hn.here
  obtain ⟨hms, hcs⟩ := hp.number ht
  have hkey : n.key = {} := by rw [hp.key, hp.noKey, if_pos (by simp [ht])]
  refine ⟨rfl, ?_, ⟨_, rfl, fun hne => bne_iff_ne.mpr hne⟩, _, reads_bare ?_ ?_ ?_ ?_ ?_ _ _⟩
  · show (pbEvalFieldLength n.tag n.type { i64 := v } : ℤ) = _
    omega
  · exact hms
  · exact hcs
  · exact fun h => absurd h ht
  · exact hkey
  · exact ⟨htag, rfl⟩

/-- The number that is put into a list. -/
theorem reads_number (ht : TagOk t) (v : UInt64) (pk k : Bool) (a : ℕ) :
    ∃ f, Reads pk k ((initNode t .varint (some { i64 := v }) true 0 k).at' a) f := by
  refine ⟨_, reads_bare rfl rfl (fun h => by cases h) rfl ⟨ht, rfl⟩ _ _⟩

theorem resized_insertIntLeaf (hn : Looked pl.parentKeyed pl.isMeta n) (hret : (n.insertIntLeaf t v pl).ret = .ok r)
    (hf : Fits (.insertIntLeaf t v) pl n) :
    Resized pl n (n.insertIntLeaf t v pl) (growth (.insertIntLeaf t v) pl n) := by
  obtain ⟨htag, hre⟩ := hf
  have hzero : t ≠ 0 := fun h0 => absurd htag.1 (by rw [h0]; decide)
  have hnew : n.insertIntLeaf t v pl = insertChild (initNode t .varint (some { i64 := v })) true true pl n := by
    simp only [KnvNode.insertIntLeaf, insertNew, new, if_neg hzero]
  rw [hnew] at hret ⊢
  revert hret
  refine insertChild_rule (P := fun o => o.ret = .ok r → Resized pl n o _) (fun _ he => by cases he)
    fun _ ht q hq => ⟨fun _ he => (by cases he), fun c hc c' hc' _ => ?_⟩
  have hown : c' = initNode t .varint (some { i64 := v }) := by
    cases hc
    rw [hc', evaluateSize_of_nonneg (shape_initNode ..).evaluated, ite_self]
  subst hq
  rw [hown]
  have hlook := hn.innerExpand
  refine resized_finish hn ht ⟨rfl, rfl, rfl, rfl, rfl, rfl, rfl, ?_, fun x hx => ⟨hlook.here.metas x hx, ?_⟩,
    fun x hx => ?_, fun _ _ _ => Iff.rfl⟩ hre
  · rw [linkChild]
    simp only [if_true, List.map_append, List.sum_append, List.map_cons, List.map_nil, List.sum_cons, List.sum_nil]
    show _ + (_ + (_ + 0)) = _ + _ + metaSize t .varint (some { i64 := v })
    have hsz : ((initNode t .varint (some { i64 := v })).at' (n.innerExpand pl.parentKeyed false).slots).evalSz =
        metaSize t .varint (some { i64 := v }) := rfl
    rw [hsz]
    omega
  · exact reads_of_stay hre (List.mem_append_left _ hx) (hlook.metas x hx)
  · rcases mem_linkChild.mp hx with rfl | hx
    · exact ⟨UInt32.not_le.mpr htag.1, reads_number htag.ok v _ false _⟩
    · exact ⟨hlook.here.children x hx, reads_of_stay hre (List.mem_append_right _ hx) (hlook.children x hx)⟩

/-- Fewer children, and another index. -/
def fewer (q : KnvNode) (t : UInt32) (ht : KnvHt) : KnvNode :=
  { q with ht := ht, childlist := q.childlist.filter fun c => c.tag ≠ t }

theorem removeChildrenByTag_eq (hv : n.isValid = true) (hq : q = n.innerExpand pl.parentKeyed false) (hs : Shaped q)
    (hne : ∃ c ∈ q.childlist, c.tag = t) : ∃ ht k, n.removeChildrenByTag t pl =
      ⟨((fewer q t ht).finish (offset (.removeChildrenByTag t) q)).node,
        ((fewer q t ht).finish (offset (.removeChildrenByTag t) q)).msgs, .ok k⟩ := by
  obtain ⟨c, hc, hct⟩ := hne
  have hmatched : (q.childlist.filter fun c => c.tag = t) ≠ [] :=
    List.ne_nil_of_mem (List.mem_filter.mpr ⟨hc, decide_eq_true hct⟩)
  have heval : (q.childlist.filter fun c => c.tag = t).map (·.evaluateSize.evalSz) =
      (q.childlist.filter fun c => c.tag = t).map (·.evalSz) := by
    refine List.map_congr_left fun c hc => ?_
    rw [evaluateSize_of_nonneg (hs.children c (List.mem_filter.mp hc).1).here.evaluated]
  unfold KnvNode.removeChildrenByTag
  rw [if_neg (by simp [hv]), ← hq]
  simp only [List.isEmpty_iff, hmatched, if_false, hs.here.evaluated, if_true, heval]
  exact ⟨_, _, rfl⟩

theorem resized_removeChildrenByTag (hn : Looked pl.parentKeyed pl.isMeta n) (hs : Shaped n)
    (hret : (n.removeChildrenByTag t pl).ret = .ok r) (hf : Fits (.removeChildrenByTag t) pl n) :
    Resized pl n (n.removeChildrenByTag t pl) (growth (.removeChildrenByTag t) pl n) := by
  obtain ⟨hne, hre⟩ := hf
  have hv : n.isValid = true := by
    by_contra hv
    unfold KnvNode.removeChildrenByTag at hret
    rw [if_pos (by simpa using hv)] at hret
    cases hret
  have hlook := hn.innerExpand
  have ht : n.type = .string := by
    by_contra ht
    obtain ⟨c, hc, -⟩ := hne
    rw [(hlook.here.number (by rw [(expandSame ..).type]; exact ht)).2] at hc
    exact absurd hc List.not_mem_nil
  obtain ⟨ht', k, hrun⟩ := removeChildrenByTag_eq hv rfl (hs.innerExpand pl.parentKeyed false) hne
  have hres := resized_finish (m := fewer (n.innerExpand pl.parentKeyed false) t ht') hn ht
    ⟨rfl, rfl, rfl, rfl, rfl, rfl, rfl, ?_, fun x hx => ⟨hlook.here.metas x hx, ?_⟩, fun x hx => ?_,
      fun _ _ _ => Iff.rfl⟩ hre
  · rw [hrun]
    exact ⟨hres.tag, hres.size, hres.msgs, hres.reads⟩
  · have hsum := sum_filter_not (fun x : KnvNode => x.evalSz) (fun c : KnvNode => c.tag = t)
      (n.innerExpand pl.parentKeyed false).childlist
    simp only [fewer, ne_eq, hsum, offset]
    omega
  · exact reads_of_stay hre (List.mem_append_left _ hx) (hlook.metas x hx)
  · have hmem := (List.mem_filter.mp hx).1
    exact ⟨hlook.here.children x hmem, reads_of_stay hre (List.mem_append_right _ hx) (hlook.children x hmem)⟩

/-- The meta that is found is in the list, with the tag that was asked for. -/
theorem tag_of_metaAt_looked {k : Bool} (hq : Parsed k q) (hs : Shape q) {y : KnvNode} (hy : q.metaAt t = some y) :
    y ∈ q.metalist ∧ y.tag = t := by
  obtain ⟨hne, hmetas, hmem⟩ := metaAt_eq_some hy
  obtain ⟨x, hx, hself, htag⟩ := hq.lead hne t _ hmetas
  obtain rfl := List.inj_on_of_nodup_map (nodup_metas hs) hx hmem hself
  exact ⟨hmem, htag⟩

/-- The number that is written over a meta. -/
theorem overwritten {y : KnvNode} {k : Bool} (hy : Looked pk true y) (htag : y.tag = t) (ht : TagOk t) (v : UInt64) :
    ∃ x, x = y.overwrite t .varint (some { i64 := v }) k ∧ x.self = y.self ∧ x.tag = t ∧
      x.evalSz = metaSize t .varint (some { i64 := v }) ∧ ∃ f, Reads pk true x f := by
  have hkey : y.key = {} := by rw [hy.here.key, hy.here.noKey, Bool.true_or, if_pos rfl]
  have hbare : ∀ x : KnvNode, x.metalist = [] → x.childlist = [] → x.type = .varint → x.key = {} → x.tag = t →
      x.val = { i64 := v } → x.evalSz = metaSize t .varint (some { i64 := v }) → x.tag = t ∧
        x.evalSz = metaSize t .varint (some { i64 := v }) ∧ ∃ f, Reads pk true x f := by
    intro x hms hcs hxt hxk hx hval hsz
    refine ⟨hx, hsz, _, reads_bare hms hcs (fun h => absurd (hxt.symm.trans h) (by decide)) hxk ⟨hx ▸ ht, ?_⟩ _ _⟩
    rw [hsz, hx, hxt, hval]
    rfl
  refine ⟨_, rfl, self_overwrite .., ?_⟩
  rw [overwrite_eq]
  cases hexp : y.expanded with
  | true => exact hbare _ rfl rfl rfl hkey htag rfl rfl
  | false =>
    obtain ⟨hms, hcs⟩ := hy.here.folded hexp
    exact hbare _ hms hcs rfl hkey htag rfl rfl

theorem relisted_overwrite {y : KnvNode} {d : ℤ} (hq : Looked pl.parentKeyed pl.isMeta q) (hs : Shaped q)
    (htag : TagOk t) (hone : t ≠ 1) (hy : q.metaAt t = some y) (hre : Rewrites pl q (stay (.setMetaInt t v) q) d)
    (k : Bool) :
    Relisted pl q (q.setMetaNode (y.overwrite t .varint (some { i64 := v }) k)) (offset (.setMetaInt t v) q) := by
  obtain ⟨hmem, hyt⟩ := tag_of_metaAt_looked hq.here hs.here hy
  obtain ⟨x, hx, hself, hxt, hsz, hreads⟩ := overwritten (k := k) (hq.metas y hmem) hyt htag v
  rw [← hx]
  have hnd := nodup_metas hs.here
  have honly : ∀ z ∈ q.metalist, z.self = x.self → z = y := fun z hz he =>
    List.inj_on_of_nodup_map hnd hz hmem (he.trans hself)
  refine ⟨rfl, rfl, rfl, rfl, rfl, rfl, rfl, ?_, fun z hz => ?_, fun z hz => ⟨hq.here.children z hz, ?_⟩,
    fun _ z hz => ?_⟩
  · have hsum := sum_replace (fun z : KnvNode => z.evalSz) (fun z : KnvNode => z.self) hself hnd hmem
    have hoff : offset (.setMetaInt t v) q = metaSize t .varint (some { i64 := v }) - y.evalSz := by rw [offset, hy]; rfl
    rw [hoff, ← hsz]
    simp only [setMetaNode] at hsum ⊢
    omega
  · obtain ⟨w, hw, rfl⟩ := List.mem_map.mp hz
    split
    · exact ⟨by rw [hxt, ← hyt]; exact hq.here.metas y hmem, hreads⟩
    · next hne =>
      refine ⟨hq.here.metas w hw, reads_of_stay hre (List.mem_append_left _ ?_) (hq.metas w hw)⟩
      refine List.mem_filter.mpr ⟨hw, decide_eq_true ?_⟩
      rw [hy, Option.map_some, ← hself]
      exact fun he => hne (Option.some.inj he).symm
  · exact reads_of_stay hre (List.mem_append_right _ hz) (hq.children z hz)
  · -- the first meta keeps its tag, which is the key's only if it stays
    cases hl : q.metalist with
    | nil => simp [setMetaNode, hl]
    | cons w l =>
      have hhead : (q.setMetaNode x).metalist.head? = some (if w.self = x.self then x else w) := by simp [setMetaNode, hl]
      rw [hhead]
      by_cases hw : w.self = x.self
      · have hwy := honly w (hl ▸ List.mem_cons_self ..) hw
        rw [if_pos hw, List.head?_cons]
        refine ⟨fun he => ?_, fun he => ?_⟩
        · obtain rfl := Option.some.inj he
          exact absurd (hxt.symm.trans hz) hone
        · obtain rfl := Option.some.inj he
          exact absurd (hyt.symm.trans (hwy ▸ hz)) hone
      · rw [if_neg hw, List.head?_cons]

theorem relisted_addMetaNode {d : ℤ} (hq : Looked pl.parentKeyed pl.isMeta q) (htag : TagOk t) (hle : t ≤ ucMaxMetaNum)
    (hone : t ≠ 1) (hy : q.metaAt t = none) (hre : Rewrites pl q (stay (.setMetaInt t v) q) d) :
    Relisted pl q (q.addMetaNode t .varint (some { i64 := v })) (offset (.setMetaInt t v) q) := by
  have hlist : (q.addMetaNode t .varint (some { i64 := v })).metalist =
      q.metalist ++ [(initNode t .varint (some { i64 := v }) true 0 true).at' q.slots] := by simp [addMetaNode, hone]
  have hstay : stay (.setMetaInt t v) q = q.metalist ++ q.childlist := by simp [stay, hy]
  rw [hstay] at hre
  refine ⟨rfl, rfl, rfl, rfl, rfl, rfl, rfl, ?_, fun z hz => ?_, fun z hz => ⟨hq.here.children z hz, ?_⟩,
    fun _ z hz => ?_⟩
  · have hoff : offset (.setMetaInt t v) q =
        ((initNode t .varint (some { i64 := v }) true 0 true).at' q.slots).evalSz := by
      rw [offset, hy]
      exact Int.sub_zero _
    rw [hlist, hoff, List.map_append, List.sum_append]
    simp only [List.map_cons, List.map_nil, List.sum_cons, List.sum_nil, addMetaNode]
    omega
  · rw [hlist] at hz
    rcases List.mem_append.mp hz with hz | hz
    · exact ⟨hq.here.metas z hz, reads_of_stay hre (List.mem_append_left _ hz) (hq.metas z hz)⟩
    · rw [List.mem_singleton.mp hz]
      exact ⟨hle, reads_number htag v _ true _⟩
  · exact reads_of_stay hre (List.mem_append_right _ hz) (hq.children z hz)
  · rw [hlist]
    cases hl : q.metalist with
    | nil =>
      refine ⟨fun he => ?_, fun he => by cases he⟩
      obtain rfl := Option.some.inj he
      exact absurd hz hone
    | cons w l => rfl

theorem resized_setMetaInt (hn : Looked pl.parentKeyed pl.isMeta n) (hs : Shaped n) (htag : 2 ≤ t ∧ t ≤ ucMaxMetaNum)
    (hret : (n.setMeta t .varint (some { i64 := v }) pl).ret = .ok r) (hre : Fits (.setMetaInt t v) pl n) :
    Resized pl n (n.setMeta t .varint (some { i64 := v }) pl) (growth (.setMetaInt t v) pl n) := by
  have hone : t ≠ 1 := fun h => absurd (h ▸ htag.1) (by decide)
  have hok : TagOk t := by
    have h2 : (2 : ℕ) ≤ t.toNat := htag.1
    have h10 : t.toNat ≤ 10 := htag.2
    exact ⟨by omega, by omega⟩
  have hinner : n.setMeta t .varint (some { i64 := v }) pl = n.setMetaInner t .varint (some { i64 := v }) true pl := by
    rw [KnvNode.setMeta, if_neg (by simp [hone])]
  have hlook := hn.innerExpand
  have hsq := hs.innerExpand pl.parentKeyed false
  rw [hinner] at hret ⊢
  revert hret
  refine setMetaInner_rule (P := fun o => o.ret = .ok r → Resized pl n o _) (fun _ _ he => by cases he)
    fun _ ht _ q hq => ?_
  subst hq
  refine ⟨fun y hy _ => ?_, fun hy _ => ?_⟩
  · obtain ⟨hmem, -⟩ := tag_of_metaAt_looked hlook.here hsq.here hy
    have hoff : offset (.setMetaInt t v) (n.innerExpand pl.parentKeyed false) =
        metaSize t .varint (some { i64 := v }) - y.evaluateSize.evalSz := by
      rw [offset, hy, evaluateSize_of_nonneg (hsq.metas y hmem).here.evaluated]
      rfl
    rw [← hoff]
    exact resized_finish hn ht (relisted_overwrite hlook hsq hok hone hy hre _) hre
  · have hoff : offset (.setMetaInt t v) (n.innerExpand pl.parentKeyed false) =
        metaSize t .varint (some { i64 := v }) := by
      rw [offset, hy]
      exact Int.sub_zero _
    rw [← hoff]
    exact resized_finish hn ht (relisted_addMetaNode hlook hok htag.2 hone hy hre) hre

/-- **An edit** of a node that fits leaves a node that is written and read back. -/
theorem resized_run (hn : Looked pl.parentKeyed pl.isMeta n) (hs : Shaped n) (hkeep : e.KeepsKey)
    (hret : (e.run pl n).ret = .ok r) (hf : e.Fits pl n) : Resized pl n (e.run pl n) (e.growth pl n) := by
  cases e with
  | setValue v => exact resized_setValue hn hret hf
  | insertIntLeaf t v => exact resized_insertIntLeaf hn hret hf
  | removeChildrenByTag t => exact resized_removeChildrenByTag hn hs hret hf
  | setMetaInt t v => exact resized_setMetaInt hn hs hkeep hret hf

/-- **An edit below** leaves the nodes on the path written and read back. -/
theorem resized_editAt : ∀ {path : List Slot} {pl : Place} {n : KnvNode} {out : Out},
    Looked pl.parentKeyed pl.isMeta n → Shaped n → e.KeepsKey → editAt hanging e.run path pl n = some out →
    out.ret = .ok r → e.FitsAt path pl n → Resized pl n out (e.growthAt path pl n) := by
  intro path
  induction path with
  | nil =>
    intro pl n out hn hs hkeep hout hret hf
    cases hout
    exact resized_run hn hs hkeep hret hf
  | cons s path ih =>
    intro pl n out hn hs hkeep hout hret hf
    obtain ⟨c, o, hc, ho, rfl⟩ := editAt_cons hout
    obtain ⟨c₁, hc₁, hfit, hre⟩ := hf
    obtain rfl : c₁ = c := Option.some.inj (hc₁.symm.trans hc)
    have hbelow := ih (hn.slot hc) (All.slot hs hc) hkeep ho hret hfit
    have hgrow : e.growthAt (s :: path) pl n = (n.updateEvalSz (e.growthAt path (n.place s) c₁)).2 := by
      rw [growthAt, hc₁]
    rw [hgrow]
    exact resized_up hn hs.here hc₁ hre hbelow o.ret

/-! #### What has changed -/

theorem changed_removeChildrenByTag (hs : Shaped n) (hret : (n.removeChildrenByTag t pl).ret = .ok r) :
    Changed (.removeChildrenByTag t) [] pl n (n.removeChildrenByTag t pl).node := by
  have hsame := expandSame pl.parentKeyed false n
  have hv : n.isValid = true := by
    by_contra hv
    unfold KnvNode.removeChildrenByTag at hret
    rw [if_pos (by simpa using hv)] at hret
    cases hret
  by_cases hne : ∃ c ∈ (n.innerExpand pl.parentKeyed false).childlist, c.tag = t
  · obtain ⟨ht, k, hrun⟩ := removeChildrenByTag_eq hv rfl (hs.innerExpand pl.parentKeyed false) hne
    have htouch := touched_finish (fewer (n.innerExpand pl.parentKeyed false) t ht)
      (offset (.removeChildrenByTag t) (n.innerExpand pl.parentKeyed false))
    rw [hrun]
    exact ⟨htouch.tag.trans hsame.tag, htouch.type.trans hsame.type, htouch.key.trans hsame.key, htouch.metalist,
      htouch.childlist⟩
  · have hnone : ∀ c ∈ (n.innerExpand pl.parentKeyed false).childlist, c.tag ≠ t := fun c hc hct => hne ⟨c, hc, hct⟩
    have hrun : (n.removeChildrenByTag t pl).node = n.innerExpand pl.parentKeyed false := by
      unfold KnvNode.removeChildrenByTag
      rw [if_neg (by simp [hv])]
      simp only
      rw [if_pos (by simpa [List.filter_eq_nil_iff] using hnone)]
    rw [hrun]
    refine ⟨hsame.tag, hsame.type, hsame.key, rfl, (List.filter_eq_self.mpr fun c hc => ?_).symm⟩
    exact decide_eq_true (hnone c hc)

theorem changed_run (hn : Looked pl.parentKeyed pl.isMeta n) (hs : Shaped n) (hkeep : e.KeepsKey)
    (hret : (e.run pl n).ret = .ok r) : e.Changed [] pl n (e.run pl n).node := by
  have hsame := expandSame pl.parentKeyed false n
  cases e with
  | setValue v =>
    simp only [run] at hret ⊢
    revert hret
    refine setValueInt_rule (P := fun o => o.ret = .ok r → Changed (.setValue v) [] pl n o.node)
      (fun _ he => by cases he) fun _ ht _ => ?_
    obtain ⟨hms, hcs⟩ := hn.here.number ht
    obtain ⟨hqms, hqcs⟩ := hn.innerExpand.here.number (by rw [hsame.type]; exact ht)
    exact ⟨rfl, rfl, rfl, rfl, hms.trans hqms.symm, hcs.trans hqcs.symm⟩
  | insertIntLeaf t v =>
    simp only [run, KnvNode.insertIntLeaf, insertNew, new] at hret ⊢
    by_cases hzero : t = 0
    · simp [hzero, fail] at hret
    simp only [if_neg hzero] at hret ⊢
    revert hret
    refine insertChild_rule (P := fun o => o.ret = .ok r → Changed (.insertIntLeaf t v) [] pl n o.node)
      (fun _ he => by cases he) fun _ ht q hq => ⟨fun _ he => (by cases he), fun c hc c' hc' _ => ?_⟩
    have hown : c' = initNode t .varint (some { i64 := v }) := by
      cases hc
      rw [hc', evaluateSize_of_nonneg (shape_initNode ..).evaluated, ite_self]
    subst hq
    have htouch := touched_finish ((n.innerExpand pl.parentKeyed false).linkChild c' true) c'.evalSz
    refine ⟨htouch.tag.trans hsame.tag, htouch.type.trans hsame.type, htouch.key.trans hsame.key, htouch.metalist,
      c'.at' (n.innerExpand pl.parentKeyed false).slots, htouch.childlist, ?_⟩
    rw [hown]
    exact ⟨rfl, rfl, rfl⟩
  | removeChildrenByTag t => exact changed_removeChildrenByTag hs hret
  | setMetaInt t v =>
    have hone : t ≠ 1 := fun h => absurd (h ▸ hkeep.1) (by decide)
    have hinner : n.setMeta t .varint (some { i64 := v }) pl = n.setMetaInner t .varint (some { i64 := v }) true pl := by
      rw [KnvNode.setMeta, if_neg (by simp [hone])]
    have hlook := hn.innerExpand
    have hsq := hs.innerExpand pl.parentKeyed false
    simp only [run] at hret ⊢
    rw [hinner] at hret ⊢
    revert hret
    refine setMetaInner_rule (P := fun o => o.ret = .ok r → Changed (.setMetaInt t v) [] pl n o.node)
      (fun _ _ he => by cases he) fun _ ht _ q hq => ?_
    subst hq
    refine ⟨fun y hy _ => ?_, fun hy _ => ?_⟩
    · obtain ⟨hmem, hyt⟩ := tag_of_metaAt_looked hlook.here hsq.here hy
      have htouch := touched_finish ((n.innerExpand pl.parentKeyed false).setMetaNode (y.overwrite t .varint
        (some { i64 := v }) (!(n.innerExpand pl.parentKeyed false).noKey && t == 1)))
        (metaSize t .varint (some { i64 := v }) - y.evaluateSize.evalSz)
      refine ⟨htouch.tag.trans hsame.tag, htouch.type.trans hsame.type, htouch.key.trans hsame.key, htouch.childlist,
        y.overwrite t .varint (some { i64 := v }) (!(n.innerExpand pl.parentKeyed false).noKey && t == 1), ?_, ?_, ?_, ?_⟩
      · rw [overwrite_eq]
        cases y.expanded <;> exact hyt
      · rw [overwrite_eq]
      · rw [overwrite_eq]
        rfl
      · rw [hy]
        refine htouch.metalist.trans ?_
        rw [setMetaNode, self_overwrite]
    · have htouch := touched_finish ((n.innerExpand pl.parentKeyed false).addMetaNode t .varint (some { i64 := v }))
        (metaSize t .varint (some { i64 := v }))
      refine ⟨htouch.tag.trans hsame.tag, htouch.type.trans hsame.type, htouch.key.trans hsame.key, htouch.childlist,
        (initNode t .varint (some { i64 := v }) true 0 true).at' (n.innerExpand pl.parentKeyed false).slots,
        rfl, rfl, rfl, ?_⟩
      rw [hy]
      refine htouch.metalist.trans ?_
      simp [addMetaNode, hone]

/-- **An edit changes nothing but the node it edits**, wherever that is. -/
theorem changed_editAt : ∀ {path : List Slot} {pl : Place} {n : KnvNode} {out : Out},
    Looked pl.parentKeyed pl.isMeta n → Shaped n → e.KeepsKey → editAt hanging e.run path pl n = some out →
    out.ret = .ok r → e.Changed path pl n out.node := by
  intro path
  induction path with
  | nil =>
    intro pl n out hn hs hkeep hout hret
    cases hout
    exact changed_run hn hs hkeep hret
  | cons s path ih =>
    intro pl n out hn hs hkeep hout hret
    obtain ⟨c, o, hc, ho, rfl⟩ := editAt_cons hout
    have hc' : n.slot s = some c := hc
    have hbelow := ih (hn.slot hc) (All.slot hs hc) hkeep ho hret
    have htouch := touched_handleAll o.node.self o.msgs (n.setSlot s o.node)
    have hset : (n.setSlot s o.node).tag = n.tag ∧ (n.setSlot s o.node).type = n.type ∧
        (n.setSlot s o.node).key = n.key := by cases s <;> exact ⟨rfl, rfl, rfl⟩
    rw [notify_setSlot hc']
    exact ⟨htouch.tag.trans hset.1, htouch.type.trans hset.2.1, htouch.key.trans hset.2.2, c, o.node, hc',
      htouch.metalist, htouch.childlist, hbelow⟩

/-! ### What is expected of an edit -/

/-- `Serialize` succeeds and writes as many bytes as `EvaluateSize` says, and `New` makes the same tree of them. -/
structure WrittenBack (n : KnvNode) : Prop where
  written : ∃ out, n.serializeStr = .ok out ∧ (out.length : ℤ) = n.evaluateSize.evalSz
  again : ∀ out, n.serializeStr = .ok out → out.length < 2 ^ 31 → ∃ m, newFromBytes out = .ok m ∧ SameTree false n m

/-- There is nothing to remove at a path. -/
def IdleAt (e : TreeEdit) (path : List Slot) (root : KnvNode) : Prop :=
  ∀ pl n, ctxAt hanging path {} root = some pl → nodeAt hanging path root = some n → e.Idle pl n

/-- What is asked of a tree before an edit. -/
def FitsIn (e : TreeEdit) (path : List Slot) (root : KnvNode) : Prop :=
  e.IdleAt path root ∧ Minimal root ∨ e.FitsAt path {} root

theorem writtenBack_of_reads {f : PbField} (h : Reads false false n f) : WrittenBack n := by
  have hev : 0 ≤ n.evalSz := by
    rw [h.wire.size]
    exact Int.natCast_nonneg _
  have hser := h.wire.serializeStr hev
  refine ⟨⟨_, hser, by rw [evaluateSize_of_nonneg hev, h.wire.size]⟩, fun out hout hlen => ?_⟩
  obtain rfl : f.encode = out := Except.ok.inj (hser.symm.trans hout)
  have hlong : f.val.str.length < 2 ^ 64 := by
    have hle := length_norm_le f
    rw [h.wire.norm] at hle
    omega
  exact ⟨_, newFromBytes_encode ⟨h.tag, hlong⟩ h.wire.norm, h.same hlong f.encode.length 0⟩

/-- An edit that has nothing to do leaves the tree as it is. -/
theorem looked_idle (hn : Looked pl.parentKeyed pl.isMeta n) (hidle : e.Idle pl n) :
    Looked pl.parentKeyed pl.isMeta (e.run pl n).node ∧ Unchanged pl.parentKeyed n (e.run pl n).node ∧
      (e.run pl n).msgs = [] := by
  obtain ⟨t, rfl, hnone⟩ := hidle
  simp only [run, KnvNode.removeChildrenByTag]
  split
  · exact ⟨hn, ⟨rfl, rfl, rfl, rfl, rfl, rfl, .refl _ _⟩, rfl⟩
  · rw [if_pos (by simpa [List.filter_eq_nil_iff] using hnone)]
    exact ⟨hn.innerExpand, hn.unchanged, rfl⟩

/-- **What is accepted can be edited and written back**, where nothing that is written again differs from what the
encoder would have written. -/
theorem writtenBack_of_run {b : Bytes} {root₀ root : KnvNode} (hnew : newFromBytes b = .ok root₀)
    (hlook : LookedInto root₀ root) {path : List Slot} {out : Out} (hrun : e.runAt path root = some out)
    (hret : out.ret = .ok r) (hkeep : e.KeepsKey) (hfit : e.FitsIn path root) :
    e.Changed path {} root out.node ∧ WrittenBack out.node := by
  obtain ⟨hroot, hs⟩ := looked_of_run hnew hlook
  refine ⟨@changed_editAt e r path {} root out hroot hs hkeep hrun hret, ?_⟩
  rcases hfit with ⟨hidle, hmin⟩ | hfit
  · obtain ⟨hout, hsame, -⟩ := @looked_editAt root {} e.run path out hroot (fun pl t hpl ht hlt =>
      looked_idle hlt (hidle pl t hpl ht)) hrun
    refine writtenBack_of_reads (hout.reads ⟨?_, ?_⟩)
    · rw [hsame.tag]
      exact hmin.tag
    · rw [hsame.evalSz, hsame.tag, hsame.type, hsame.val]
      exact hmin.size
  · obtain ⟨f, hf⟩ := (@resized_editAt e r path {} root out hroot hs hkeep hrun hret hfit).reads
    exact writtenBack_of_reads hf

/-- A leaf is inserted into a child of a node with a key. -/
theorem writtenBack_of_run_insertIntLeaf : ∃ root₀ root out,
    newFromBytes [98, 9, 10, 1, 65, 88, 5, 106, 2, 88, 1] = .ok root₀ ∧ LookedInto root₀ root ∧
    (insertIntLeaf 14 7).runAt [.ofChild 1] root = some out ∧ out.ret = .ok 0 ∧
    (insertIntLeaf 14 7).Changed [.ofChild 1] {} root out.node ∧ WrittenBack out.node := by
  obtain ⟨root₀, hn⟩ : ∃ n, newFromBytes [98, 9, 10, 1, 65, 88, 5, 106, 2, 88, 1] = .ok n := ⟨_, rfl⟩
  obtain ⟨found, hfound⟩ : ∃ out, Op.lookup.runAt [] root₀ = some out := by
    cases hn
    exact ⟨_, rfl⟩
  obtain ⟨out, hout⟩ : ∃ out, (insertIntLeaf 14 7).runAt [.ofChild 1] found.node = some out := by
    cases hn
    cases hfound
    exact ⟨_, rfl⟩
  have hret : out.ret = .ok 0 := by
    cases hn
    cases hfound
    cases hout
    decide +kernel
  have hfit : (insertIntLeaf 14 7).FitsIn [.ofChild 1] found.node := by
    cases hn
    cases hfound
    refine .inr ⟨_, rfl, ⟨⟨by decide, by decide⟩, ?_⟩, ?_⟩
    · -- the child has no metas
      refine ⟨by decide +kernel, by decide +kernel, by decide +kernel, by decide +kernel, by decide +kernel, ?_⟩
      intro _ x hx
      cases hx
    · -- the key of the root is its first meta
      refine ⟨by decide +kernel, by decide +kernel, by decide +kernel, by decide +kernel, by decide +kernel, ?_⟩
      intro _ x hx _
      cases hx
      exact ⟨List.mem_cons_self, by decide +kernel, by decide +kernel⟩
  have hlook : LookedInto root₀ found.node := .step .none hfound
  exact ⟨root₀, found.node, out, hn, hlook, hout, hret, writtenBack_of_run hn hlook hout hret trivial hfit⟩

/-- A child of two bytes has taken three: the tree is not written after a leaf has been inserted beside it. -/
theorem not_writtenBack_of_run : ¬∀ (b : Bytes) (root₀ root : KnvNode) (e : TreeEdit) (path : List Slot) (out : Out)
    (r : ℕ), newFromBytes b = .ok root₀ → LookedInto root₀ root → e.runAt path root = some out → out.ret = .ok r →
    e.KeepsKey → e.Changed path {} root out.node ∧ WrittenBack out.node := by
  intro h
  obtain ⟨root, hn⟩ : ∃ n, newFromBytes [98, 3, 88, 133, 0] = .ok n := ⟨_, rfl⟩
  obtain ⟨out, hout⟩ : ∃ out, (insertIntLeaf 12 7).runAt [] root = some out := ⟨_, rfl⟩
  have hback := h _ root root _ _ out 0 hn .none hout
  cases hn
  cases hout
  obtain ⟨bytes, hbytes, -⟩ := (hback (by decide +kernel) trivial).2.written
  have hsome := congrArg (fun r => r.toOption.isSome) hbytes
  revert hsome
  simp only [Except.toOption, Option.isSome_some]
  decide +kernel

end TreeEdit

end KnvProto
