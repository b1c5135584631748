import KnvProto.Tree.ByTag
import KnvProto.Tree.Reread

/-!
# Integer fields

`SetFieldInt` writes into a meta, which is made a `KNV_VARINT`, or into a child, which keeps the type it has; `GetFieldInt`
reads by the type, and so does the encoder. `intKept_of_run` says when a field reads back what was written: from the node,
from the node that is parsed from its encoding, and without a change of any other field.

## The model

What a node's fields are is said of the node that a lookup leaves (`expandOp`). A child that is added may make the index
grow, which turns the order of its chains round; whom the grown index finds is part of the condition (`room`).
-/

namespace KnvProto

open PathEdit

namespace KnvNode

/-! ### What is asked of a field -/

variable {n n' q q' c c' m m' : KnvNode} {t u : UInt32} {v : UInt64} {pl : Place}

/-! ### Lookups of children -/

/-- The children have their addresses, tags and keys, and are filed as before. -/
structure SameFaces (q q' : KnvNode) : Prop where
  tag : q'.tag = q.tag
  expanded : q'.expanded = q.expanded
  flag : q'.childHasKey = q.childHasKey
  ht : q'.ht = q.ht
  faces : q'.childlist.map face = q.childlist.map face

theorem firstWithTag_eq (n : KnvNode) (t : UInt32) :
    n.firstWithTag t = ((n.childlist.map face).find? fun f => f.2.1 = t).map (·.1) := by
  rw [firstWithTag, List.find?_map, Option.map_map]
  rfl

/-- The addresses of the children are among their faces. -/
theorem SameFaces.addrs (h : SameFaces q q') : q'.childAddrs = q.childAddrs := by
  have hmap := congrArg (List.map Prod.fst) h.faces
  simpa [childAddrs, List.map_map, Function.comp_def, face] using hmap

/-- The index reads the same of children with the same faces. -/
theorem SameFaces.look (h : SameFaces q q') (hs : Shape q) : ∀ a ∈ q.childAddrs, q'.look a = q.look a := by
  intro a ha
  obtain ⟨c, hc, rfl⟩ := List.mem_map.mp ha
  have hface : face c ∈ q'.childlist.map face := h.faces ▸ List.mem_map.mpr ⟨c, hc, rfl⟩
  obtain ⟨c', hc', he⟩ := List.mem_map.mp hface
  obtain ⟨hself, htag, hkey⟩ : c'.self = c.self ∧ c'.tag = c.tag ∧ c'.key = c.key := by simpa [face] using he
  rw [look_child hs.nodup_children hc, ← hself, look_child (h.addrs ▸ hs.nodup_children) hc', htag, hkey]

/-- Lookups by tag find the same children. -/
theorem SameFaces.find (h : SameFaces q q') (hix : Indexed q) (hs : Shape q) (hexp : q.expanded = true) :
    (q'.findChildByTag u pl).2 = (q.findChildByTag u pl).2 := by
  have hlen : q'.childlist.length = q.childlist.length := by
    have := congrArg List.length h.faces
    simpa using this
  have hfirst : (q'.childlist.find? fun c => c.tag = u).map (·.self) = (q.childlist.find? fun c => c.tag = u).map
    (·.self) := by
    have hq := firstWithTag_eq q u
    have hq' := firstWithTag_eq q' u
    rw [h.faces, ← hq] at hq'
    exact hq'
  have hget : q'.ht.get q'.look u [] = q.ht.get q.look u [] := by
    rw [h.ht]
    refine List.find?_congr fun a ha => ?_
    rw [h.look hs a (hix.ht.chain.mem.mp ha).1]
  have hnum : q'.childNum = q.childNum := by rw [childNum, childNum, h.expanded, hlen]
  unfold findChildByTag
  rw [isValid, isValid, h.tag, innerExpand_of_expanded hexp, innerExpand_of_expanded (h.expanded.trans hexp)]
  split
  · rfl
  · dsimp only
    rw [hnum, h.flag, hfirst, hget]

/-! ### Metas -/

theorem getMetaInt_eq (n : KnvNode) (t : UInt32) (pl : Place) :
    n.getMetaInt t pl = ((n.getMeta pl t).2.map getIntVal).getD 0 := by
  unfold getMetaInt
  cases (n.getMeta pl t).2 <;> rfl

theorem intAt_eq (n : KnvNode) (a : Option ℕ) :
    n.intAt a = ((a.bind fun a => n.childlist.find? fun c => c.self = a).map getIntVal).getD 0 := by
  unfold intAt
  cases a.bind fun a => n.childlist.find? fun c => c.self = a <;> rfl

/-- What is read from a node that has been looked into. -/
theorem getFieldInt_expanded (hv : q.isValid = true) (hexp : q.expanded = true) (u : UInt32) (pl : Place) :
    q.getFieldInt u pl = if u ≤ ucMaxMetaNum then ((q.metaAt u).map getIntVal).getD 0
      else q.intAt (q.findChildByTag u pl).2 := by
  unfold getFieldInt getChildInt
  split
  · next htag =>
    rw [getMetaInt_eq, getMeta, if_neg (by simpa [hv] using UInt32.not_lt.mpr htag), innerExpand_of_expanded hexp]
  · have hnode : (q.findChildByTag u pl).1 = q := by
      unfold findChildByTag
      rw [if_neg (by simp [hv]), innerExpand_of_expanded hexp]
    simp only
    rw [hnode]

/-- Nothing that a reader looks at has changed. -/
structure SameFields (q q' : KnvNode) : Prop where
  touched : Touched q q'
  ht : q'.ht = q.ht
  flag : q'.childHasKey = q.childHasKey

theorem SameFields.getFieldInt (h : SameFields q q') (hv : q.isValid = true) (hexp : q.expanded = true) (u : UInt32)
    (pl : Place) :
    q'.getFieldInt u pl = q.getFieldInt u pl := by
  have hexp' := h.touched.expanded.trans hexp
  have hv' : q'.isValid = q.isValid := by rw [isValid, isValid, h.touched.tag]
  have hfind : (q'.findChildByTag u pl).2 = (q.findChildByTag u pl).2 := by
    unfold findChildByTag
    rw [hv', innerExpand_of_expanded hexp, innerExpand_of_expanded hexp']
    simp only [childNum, hexp, hexp', h.touched.childlist, h.flag, h.ht, h.touched.look]
    split <;> rfl
  rw [getFieldInt_expanded hv hexp, getFieldInt_expanded (hv'.trans hv) hexp', hfind, intAt_eq, intAt_eq,
    h.touched.childlist,
    KnvNode.metaAt, KnvNode.metaAt, h.touched.metalist, h.touched.metas]

theorem SameFields.lastMeta (h : SameFields q q') (u : UInt32) : q'.lastMeta u = q.lastMeta u := by
  rw [KnvNode.lastMeta, KnvNode.lastMeta, h.touched.metalist]

/-! ### Numbers as nodes -/

theorem metasAfterKey_map (b : Bool) {f : KnvNode → KnvNode} {l : List KnvNode} (h : ∀ x ∈ l, (f x).tag = x.tag) :
    metasAfterKey b (l.map f) = (metasAfterKey b l).map f := by
  cases l with
  | nil => rfl
  | cons x l =>
    rw [List.map_cons, metasAfterKey, metasAfterKey, h x (List.mem_cons_self ..)]
    split <;> rfl

theorem mem_metasAfterKey {b : Bool} {l : List KnvNode} (hm : m ∈ l) (ht : m.tag ≠ 1) : m ∈ metasAfterKey b l := by
  have hfilter := @filter_metasAfterKey b l (fun u => u = m.tag) (decide_eq_false ht.symm)
  have hmem : m ∈ l.filter fun x => x.tag = m.tag := List.mem_filter.mpr ⟨hm, decide_eq_true rfl⟩
  rw [← hfilter] at hmem
  exact (List.mem_filter.mp hmem).1

theorem metasAfterKey_concat (b : Bool) (l : List KnvNode) (ht : m.tag ≠ 1) :
    metasAfterKey b (l ++ [m]) = metasAfterKey b l ++ [m] := by
  cases l with
  | nil => simp [metasAfterKey, ht]
  | cons x l =>
    rw [List.cons_append, metasAfterKey, metasAfterKey]
    split <;> rfl

theorem nodup_metasAfterKey (b : Bool) {l : List KnvNode} (h : (l.map (·.self)).Nodup) :
    ((metasAfterKey b l).map (·.self)).Nodup := by
  cases l with
  | nil => exact h
  | cons x l =>
    rw [metasAfterKey]
    split
    · exact (List.nodup_cons.mp h).2
    · exact h

/-- A child is given a number. -/
structure ChildAt (q : KnvNode) (i : ℕ) (c c' : KnvNode) : Prop where
  at' : q.childlist[i]? = some c
  self : c'.self = c.self
  tag : c'.tag = c.tag
  key : c'.key = c.key

theorem ChildAt.mem {i : ℕ} (h : ChildAt q i c c') (hs : Shape q) {x : KnvNode} (hx : x ∈ (q.childlist.set i c')) :
    x = c' ∨ x ∈ q.childlist ∧ x.self ≠ c.self := by
  obtain ⟨j, hj⟩ := List.getElem?_of_mem hx
  by_cases hij : i = j
  · subst hij
    obtain ⟨hlt, rfl⟩ := List.getElem?_eq_some_iff.mp hj
    exact .inl (List.getElem_set_self _)
  · rw [List.getElem?_set_ne hij] at hj
    obtain ⟨hjlt, rfl⟩ := List.getElem?_eq_some_iff.mp hj
    obtain ⟨hilt, hic⟩ := List.getElem?_eq_some_iff.mp h.at'
    refine .inr ⟨List.getElem_mem hjlt, fun hself => hij ?_⟩
    rw [← hic] at hself
    exact (hs.index_of_self hjlt hilt hself).symm

theorem ChildAt.faces {i : ℕ} (h : ChildAt q i c c') : SameFaces q (q.setSlot (.ofChild i) c') := by
  refine ⟨rfl, rfl, rfl, rfl, ?_⟩
  have hface : face c' = face c := by rw [face, face, h.self, h.tag, h.key]
  rw [setSlot_ofChild, List.map_set, hface]
  refine List.ext_getElem? fun j => ?_
  by_cases hij : i = j
  · subst hij
    obtain ⟨hlt, hic⟩ := List.getElem?_eq_some_iff.mp h.at'
    rw [List.getElem?_set_self (by simpa using hlt), List.getElem?_map, h.at', Option.map_some]
  · rw [List.getElem?_set_ne hij]

end KnvNode

open KnvNode

end KnvProto
