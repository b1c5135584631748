import KnvProto.Node.Cases
import KnvProto.Node.Fields

/-!
# The shape of a tree

What every operation keeps of every node, whatever the caller does: a node that
is not expanded has no nodes below it, the addresses of the nodes below a node
differ and are old, and its size has been evaluated.

`shaped_runAt` is the run lemma's step: an operation at any path keeps the shape
of the whole tree, and the address of the root.
-/

namespace KnvProto

open PathEdit

namespace KnvNode

/-- The addresses of the children and metas. -/
def addrs (n : KnvNode) : List ℕ := (n.childlist ++ n.metalist).map (·.self)

/-- What holds of every node. -/
structure Shape (n : KnvNode) : Prop where
  /-- `child_num < 0` means that there are no nodes below. -/
  folded : n.expanded = false → n.metalist = [] ∧ n.childlist = []
  /-- No two of them are at one address. -/
  nodup : n.addrs.Nodup
  /-- Their addresses have been given away. -/
  old : ∀ a ∈ n.addrs, a < n.slots
  /-- `eval_sz` has been evaluated. -/
  evaluated : 0 ≤ n.evalSz

/-- The addresses of the children. -/
def childAddrs (n : KnvNode) : List ℕ := n.childlist.map (·.self)

/-- What a node's parent reads of it. -/
def face (n : KnvNode) : ℕ × UInt32 × KnvKey := (n.self, n.tag, n.key)

/-- The index reads nothing but faces. -/
theorem look_of_faces {n n' : KnvNode} (hcs : n'.childlist.map face = n.childlist.map face)
    (hms : n'.metalist.map face = n.metalist.map face) : n'.look = n.look := by
  have hread : ∀ x : KnvNode, x.look = fun a =>
      match ((x.childlist.map face ++ x.metalist.map face).find? fun p => p.1 = a) with
      | some p => (p.2.1, p.2.2.bytes)
      | none => (0, []) := fun x => by
    funext a
    have hfind : ((x.childlist.map face ++ x.metalist.map face).find? fun p => p.1 = a) = (x.byAddr a).map face := by
      rw [byAddr, ← List.map_append, List.find?_map]
      rfl
    rw [KnvNode.look, hfind]
    cases x.byAddr a <;> rfl
  rw [hread n, hread n', hcs, hms]

theorem Shape.nodup_children {n : KnvNode} (h : Shape n) : n.childAddrs.Nodup := by
  have hnd := h.nodup
  rw [addrs, List.map_append] at hnd
  exact (List.nodup_append.mp hnd).1

/-- The address of a child says which one it is. -/
theorem Shape.index_of_self {n : KnvNode} (h : Shape n) {i j : ℕ} (hi : i < n.childlist.length) (hj : j < n.childlist.length)
    (hself : n.childlist[i].self = n.childlist[j].self) : i = j := by
  refine (List.getElem?_inj (l := n.childAddrs) (by simpa [childAddrs] using hi) h.nodup_children).mp ?_
  rw [childAddrs, List.getElem?_map, List.getElem?_map, List.getElem?_eq_getElem hi, List.getElem?_eq_getElem hj]
  exact congrArg some hself

theorem nodup_metas {n : KnvNode} (hs : Shape n) : (n.metalist.map (·.self)).Nodup := by
  have := hs.nodup
  rw [addrs, List.map_append] at this
  exact (List.nodup_append.mp this).2.1

/-- The shape of a whole tree. -/
abbrev Shaped : KnvNode → Prop := All Shape

theorem All.of_nil {P : KnvNode → Prop} {n : KnvNode} (h : P n) (hms : n.metalist = []) (hcs : n.childlist = []) :
    All P n :=
  .mk h (by simp [hms]) (by simp [hcs])

/-- The address a parent gives a node matters to the parent only. -/
@[simp] theorem shape_at' {n : KnvNode} {a : ℕ} : Shape (n.at' a) ↔ Shape n :=
  ⟨fun h => ⟨h.folded, h.nodup, h.old, h.evaluated⟩, fun h => ⟨h.folded, h.nodup, h.old, h.evaluated⟩⟩

theorem All.at' {P : KnvNode → Prop} (hP : ∀ n a, P n → P (n.at' a)) {n : KnvNode} {a : ℕ} (h : All P n) :
    All P (n.at' a) :=
  .mk (hP n a h.here) h.metas h.children

/-- A node that `InitNode` made is evaluated and has nothing below it. -/
theorem shape_initNode (tag : UInt32) (type : PbType) (value : Option PbVal) (updateEval : Bool) (fieldSz : ℕ)
    (forceNoKey : Bool) : Shape (initNode tag type value updateEval fieldSz forceNoKey) := by
  refine ⟨fun _ => ⟨rfl, rfl⟩, List.nodup_nil, fun _ h => absurd h List.not_mem_nil, ?_⟩
  simp only [initNode]
  split <;> omega

theorem shaped_initNode (tag : UInt32) (type : PbType) (value : Option PbVal) (updateEval : Bool) (fieldSz : ℕ)
    (forceNoKey : Bool) : Shaped (initNode tag type value updateEval fieldSz forceNoKey) :=
  .of_nil (shape_initNode ..) rfl rfl

/-! ### Expansion -/

theorem map_self_parsed (k : Bool) (fs : List (PbField × ℕ)) : ∀ a : ℕ,
    (parsed k a fs).map (·.self) = List.range' a fs.length := by
  induction fs with
  | nil => intro a; rfl
  | cons p fs ih => intro a; rw [parsed, List.map_cons, ih, List.length_cons, List.range'_succ]; rfl

theorem mem_parsed {k : Bool} {fs : List (PbField × ℕ)} : ∀ {a : ℕ} {c : KnvNode}, c ∈ parsed k a fs →
    ∃ p ∈ fs, ∃ b, c = (ofField p (p.1.tag ≤ ucMaxMetaNum || k)).at' b := by
  induction fs with
  | nil => intro a c h; exact absurd h List.not_mem_nil
  | cons p fs ih =>
    intro a c h
    rcases List.mem_cons.mp h with rfl | h
    · exact ⟨p, List.mem_cons_self .., a, rfl⟩
    · obtain ⟨q, hq, b, hc⟩ := ih h
      exact ⟨q, List.mem_cons_of_mem _ hq, b, hc⟩

/-- A node that is made of a field, under no key of a parent. -/
def Made (c : KnvNode) : Prop := ∃ f sz a, c = (ofField (f, sz) false).at' a

theorem Made.at' {c : KnvNode} (h : Made c) (a : ℕ) : Made (c.at' a) := by
  obtain ⟨f, sz, b, rfl⟩ := h
  exact ⟨f, sz, a, rfl⟩

/-- The children that a node without children gets by an expansion. -/
theorem made_of_innerExpand {n c : KnvNode} {pk : Bool} (hnil : n.childlist = [])
    (hc : c ∈ (n.innerExpand pk false).childlist) :
    Made c := by
  revert hc
  refine innerExpand_rule (P := fun n' => c ∈ n'.childlist → Made c)
    (fun _ hc => absurd (hnil ▸ hc) List.not_mem_nil) fun n' _ hn' hc => ?_
  cases hn' with
  | leaf _ => exact absurd hc List.not_mem_nil
  | cut _ _ _ => exact absurd hc List.not_mem_nil
  | message _ _ _ _ _ _ _ =>
    obtain ⟨hc, hmeta⟩ := List.mem_filter.mp hc
    obtain ⟨f, -, a, rfl⟩ := mem_parsed hc
    have hflag : (decide (f.1.tag ≤ ucMaxMetaNum) || false) = false := by
      rw [Bool.or_false]
      exact (Bool.not_eq_true' _).mp hmeta
    rw [hflag]
    exact ⟨f.1, f.2, a, rfl⟩

/-- A tree that is read from bytes. -/
theorem made_newFromBytes {bs : Bytes} {n : KnvNode} (h : newFromBytes bs = .ok n) : Made n := by
  unfold newFromBytes at h
  split at h
  · cases h
  · next f rest _ =>
    cases h
    exact ⟨f, bs.length - rest.length, 0, rfl⟩

/-- A property of the nodes of single fields holds of all nodes of a scan. -/
theorem all_of_mem_parsed {P : KnvNode → Prop} {k : Bool} {a : ℕ} {fs : List (PbField × ℕ)} {c : KnvNode}
    (hP : ∀ p ∈ fs, ∀ b k', P ((ofField p k').at' b)) (h : c ∈ parsed k a fs) : All P c := by
  obtain ⟨p, hp, b, rfl⟩ := mem_parsed h
  exact .of_nil (hP p hp b _) rfl rfl

theorem addrs_parsed (k : Bool) (a : ℕ) (fs : List (PbField × ℕ)) :
    (((parsed k a fs).filter (!·.isMetaTag) ++ (parsed k a fs).filter (·.isMetaTag)).map (·.self)).Perm
      (List.range' a fs.length) := by
  rw [← map_self_parsed k]
  refine List.Perm.map _ ?_
  have h := List.filter_append_perm (fun c : KnvNode => c.isMetaTag) (parsed k a fs)
  exact List.perm_append_comm.trans h

theorem Shape.innerExpand {n : KnvNode} (h : Shape n) (pk k : Bool) : Shape (n.innerExpand pk k) := by
  refine innerExpand_rule (P := Shape) (fun _ => h) fun n' _ hn' => ?_
  cases hn' with
  | leaf _ => exact ⟨fun hf => (nomatch hf), List.nodup_nil, fun _ ha => absurd ha List.not_mem_nil, h.evaluated⟩
  | cut _ _ _ => exact ⟨fun hf => (nomatch hf), List.nodup_nil, fun _ ha => absurd ha List.not_mem_nil, h.evaluated⟩
  | message _ _ _ =>
    have hperm := addrs_parsed k n.slots (pbScan n.val.str).1
    refine ⟨fun hf => (nomatch hf), hperm.nodup_iff.mpr List.nodup_range', fun a ha => ?_, h.evaluated⟩
    obtain ⟨i, hi, rfl⟩ := List.mem_range'.mp (hperm.mem_iff.mp ha)
    simp only
    omega

/-- A property that holds of the expanded node and of every node for a single field holds of the
whole expanded tree. -/
theorem All.innerExpand {Q : KnvNode → Prop} {n : KnvNode} {pk k : Bool} (h : All Q n) (hn : Q (n.innerExpand pk k))
    (hQ : ∀ p ∈ (pbScan n.val.str).1, ∀ b k', Q ((ofField p k').at' b)) : All Q (n.innerExpand pk k) := by
  revert hn
  refine innerExpand_rule (P := fun n' => Q n' → All Q n') (fun _ _ => h) fun n' _ hn' hQ' => ?_
  cases hn' with
  | leaf _ => exact .of_nil hQ' rfl rfl
  | cut _ _ _ => exact .of_nil hQ' rfl rfl
  | message _ _ _ =>
    exact .mk hQ' (fun c hc => all_of_mem_parsed hQ (List.mem_filter.mp hc).1) fun c hc =>
      all_of_mem_parsed hQ (List.mem_filter.mp hc).1

theorem Shaped.innerExpand {n : KnvNode} (h : Shaped n) (pk k : Bool) : Shaped (n.innerExpand pk k) :=
  All.innerExpand h (h.here.innerExpand pk k) fun _ _ _ _ => shape_at'.mpr (shape_initNode ..)

/-! ### Changes that leave the lists alone -/

/-- Only the value, the sizes, the mark and the index may have changed. -/
structure Touched (n n' : KnvNode) : Prop where
  self : n'.self = n.self
  tag : n'.tag = n.tag
  type : n'.type = n.type
  key : n'.key = n.key
  expanded : n'.expanded = n.expanded
  metas : n'.metas = n.metas
  noKey : n'.noKey = n.noKey
  slots : n'.slots = n.slots
  metalist : n'.metalist = n.metalist
  childlist : n'.childlist = n.childlist
  /-- A node stays evaluated. -/
  evaluated : 0 ≤ n.evalSz → 0 ≤ n'.evalSz

theorem Touched.refl (n : KnvNode) : Touched n n := ⟨rfl, rfl, rfl, rfl, rfl, rfl, rfl, rfl, rfl, rfl, id⟩

theorem Touched.trans {n n' n'' : KnvNode} (h : Touched n n') (h' : Touched n' n'') : Touched n n'' :=
  ⟨h'.self.trans h.self, h'.tag.trans h.tag, h'.type.trans h.type, h'.key.trans h.key,
    h'.expanded.trans h.expanded, h'.metas.trans h.metas, h'.noKey.trans h.noKey, h'.slots.trans h.slots,
    h'.metalist.trans h.metalist, h'.childlist.trans h.childlist, fun hn => h'.evaluated (h.evaluated hn)⟩

theorem Touched.look {n n' : KnvNode} (h : Touched n n') : n'.look = n.look := by
  funext a
  rw [KnvNode.look, KnvNode.look, byAddr, byAddr, h.metalist, h.childlist]

theorem Touched.addrs {n n' : KnvNode} (h : Touched n n') : n'.addrs = n.addrs := by
  rw [KnvNode.addrs, KnvNode.addrs, h.metalist, h.childlist]

theorem Shape.touched {n n' : KnvNode} (h : Shape n) (ht : Touched n n') : Shape n' where
  folded hf := by
    rw [ht.metalist, ht.childlist]
    exact h.folded (ht.expanded ▸ hf)
  nodup := ht.addrs ▸ h.nodup
  old := by
    rw [ht.addrs, ht.slots]
    exact h.old
  evaluated := ht.evaluated h.evaluated

theorem All.touched {P : KnvNode → Prop} {n n' : KnvNode} (h : All P n) (ht : Touched n n') (hn : P n') : All P n' :=
  .mk hn (by rw [ht.metalist]; exact h.metas) (by rw [ht.childlist]; exact h.children)

theorem Shaped.touched {n n' : KnvNode} (h : Shaped n) (ht : Touched n n') : Shaped n' :=
  All.touched h ht (h.here.touched ht)

theorem touched_updateEvalSz (n : KnvNode) (o : ℤ) : Touched n (n.updateEvalSz o).1 := by
  unfold updateEvalSz
  split
  · exact .refl n
  · exact ⟨rfl, rfl, rfl, rfl, rfl, rfl, rfl, rfl, rfl, rfl, fun _ => Int.natCast_nonneg _⟩

theorem touched_setValueDirty (n : KnvNode) : Touched n n.setValueDirty :=
  ⟨rfl, rfl, rfl, rfl, rfl, rfl, rfl, rfl, rfl, rfl, id⟩

theorem touched_turnEval (n : KnvNode) (o : ℤ) (u : Bool) : Touched n (n.turnEval o u).1 := by
  unfold turnEval
  split
  · split
    · exact .refl n
    · exact touched_updateEvalSz n o
  · exact .refl n

theorem touched_turnDirty (n : KnvNode) (u : Bool) : Touched n (n.turnDirty u).1 := by
  unfold turnDirty
  split
  · split
    · exact .refl n
    · exact touched_setValueDirty n
  · exact .refl n

theorem touched_handle (a : ℕ) (p : KnvNode) (ev : Ev) : Touched p (p.handle a ev).1 := by
  cases ev with
  | htRemove tag key => exact ⟨rfl, rfl, rfl, rfl, rfl, rfl, rfl, rfl, rfl, rfl, id⟩
  | htPut tag key => exact ⟨rfl, rfl, rfl, rfl, rfl, rfl, rfl, rfl, rfl, rfl, id⟩
  | update o e d =>
    rw [handle_update]
    split
    · exact (touched_turnEval p o e).trans (touched_turnDirty _ d)
    · exact .refl p

theorem touched_handleAll (a : ℕ) (evs : List Ev) : ∀ p : KnvNode, Touched p (p.handleAll a evs).1 := by
  induction evs with
  | nil => exact .refl
  | cons ev evs ih => exact fun p => (touched_handle a p ev).trans (ih _)

/-- What a function does at its end changes nothing but the sizes, the value and the mark. -/
theorem touched_finish (n : KnvNode) (o : ℤ) : Touched n (n.finish o).node := by
  have h : Touched n (if 0 ≤ n.evalSz then n.updateEvalSz o else (n, 0)).1 := by
    split
    · exact touched_updateEvalSz n o
    · exact .refl n
  exact h.trans (touched_setValueDirty _)

/-! ### Changes of the lists -/

@[simp] theorem innerExpand_expanded (pk k : Bool) (n : KnvNode) : (n.innerExpand pk k).expanded = true := by
  refine innerExpand_rule (P := fun n' => n'.expanded = true) id fun n' _ hn' => ?_
  cases hn' <;> rfl

/-- The members that an expansion leaves alone. -/
structure ExpandSame (n n' : KnvNode) : Prop where
  self : n'.self = n.self
  tag : n'.tag = n.tag
  type : n'.type = n.type
  val : n'.val = n.val
  key : n'.key = n.key
  noKey : n'.noKey = n.noKey
  evalSz : n'.evalSz = n.evalSz
  evalValSz : n'.evalValSz = n.evalValSz

theorem expandSame (pk k : Bool) (n : KnvNode) : ExpandSame n (n.innerExpand pk k) := by
  refine innerExpand_rule (P := ExpandSame n) (fun _ => ⟨rfl, rfl, rfl, rfl, rfl, rfl, rfl, rfl⟩) fun n' _ hn' => ?_
  cases hn' <;> exact ⟨rfl, rfl, rfl, rfl, rfl, rfl, rfl, rfl⟩

theorem innerExpand_key (n : KnvNode) (key : KnvKey) (pk k : Bool) :
    innerExpand pk k { n with key := key } = { n.innerExpand pk k with key := key } := by
  refine (innerExpand_relabel n n.self key n.evalSz pk k).trans ?_
  rw [← (expandSame pk k n).self, ← (expandSame pk k n).evalSz]

/-- An evaluated node stays as it is. -/
theorem evaluateSize_of_nonneg {n : KnvNode} (h : 0 ≤ n.evalSz) : n.evaluateSize = n := by
  obtain ⟨d, ms, cs⟩ := n
  rw [evaluateSize]
  exact if_pos h

/-- Fewer nodes below, or others at the same addresses. -/
theorem Shape.of_sublist {n n' : KnvNode} (h : Shape n) (hf : n'.expanded = false → n'.metalist = [] ∧ n'.childlist = [])
    (hsub : n'.addrs.Sublist n.addrs) (hslots : n'.slots = n.slots) (he : 0 ≤ n'.evalSz) : Shape n' where
  folded := hf
  nodup := h.nodup.sublist hsub
  old a ha := hslots ▸ h.old a (hsub.subset ha)
  evaluated := he

/-- One more node below, at the next address. -/
theorem Shape.of_add {n n' : KnvNode} (h : Shape n) (hexp : n'.expanded = true)
    (hperm : n'.addrs.Perm (n.slots :: n.addrs)) (hslots : n'.slots = n.slots + 1) (he : 0 ≤ n'.evalSz) : Shape n' where
  folded hf := by simp [hexp] at hf
  nodup := by
    rw [hperm.nodup_iff, List.nodup_cons]
    exact ⟨fun hmem => Nat.lt_irrefl _ (h.old _ hmem), h.nodup⟩
  old a ha := by
    rcases List.mem_cons.mp (hperm.mem_iff.mp ha) with rfl | ha
    · omega
    · have := h.old a ha
      omega
  evaluated := he

theorem shape_linkChild {n c : KnvNode} (h : Shape n) (hexp : n.expanded = true) (atTail : Bool) :
    Shape (n.linkChild c atTail) := by
  refine h.of_add hexp ?_ rfl h.evaluated
  simp only [addrs, linkChild]
  cases atTail
  · simp [at']
  · simp only [if_true, List.map_append, List.map_cons, at', List.append_assoc, List.singleton_append]
    exact List.perm_middle

theorem shape_addMetaNode {n : KnvNode} (h : Shape n) (hexp : n.expanded = true) (tag : UInt32) (type : PbType)
    (data : Option PbVal) : Shape (n.addMetaNode tag type data) := by
  refine h.of_add hexp ?_ rfl h.evaluated
  simp only [addrs, addMetaNode]
  split
  · simp only [List.map_append, List.map_cons, at']
    exact List.perm_middle
  · simp only [List.map_append, List.map_cons, List.map_nil, at', ← List.append_assoc]
    exact List.perm_append_comm

@[simp] theorem self_overwrite (m : KnvNode) (tag : UInt32) (type : PbType) (data : Option PbVal) (isKey : Bool) :
    (m.overwrite tag type data isKey).self = m.self := by
  unfold overwrite
  simp only
  split <;> rfl

theorem addrs_setMetaNode (n m : KnvNode) : (n.setMetaNode m).addrs = n.addrs := by
  simp only [addrs, setMetaNode, List.map_append, List.map_map]
  congr 1
  refine List.map_congr_left fun x _ => ?_
  simp only [Function.comp_apply]
  split
  · next h => exact h.symm
  · rfl

theorem addrs_setSlot {n c c' : KnvNode} {s : Slot} (hc : n.slot s = some c) (hself : c'.self = c.self) :
    (n.setSlot s c').addrs = n.addrs := by
  have key : ∀ (l : List KnvNode) (i : ℕ), l[i]? = some c → (l.set i c').map (·.self) = l.map (·.self) := by
    intro l i hi
    rw [List.map_set, hself]
    refine List.ext_getElem? fun j => ?_
    rw [List.getElem?_set]
    split
    · next h => subst h; split <;> simp_all
    · rfl
  cases s with
  | ofMeta i => simp only [addrs, setSlot, List.map_append, key _ _ hc]
  | ofChild i => simp only [addrs, setSlot, List.map_append, key _ _ hc]

/-! ### Operations -/

/-- What an operation on a node `n` of a tree leaves: a tree at the same address. -/
def KeepsShape (n : KnvNode) (o : Out) : Prop := Shaped o.node ∧ o.node.self = n.self

theorem keepsShape_finish {n n' : KnvNode} (h : Shaped n') (hself : n'.self = n.self) (o : ℤ) :
    KeepsShape n (n'.finish o) :=
  ⟨h.touched (touched_finish n' o), (touched_finish n' o).self.trans hself⟩

/-- The nodes below stay, or some of them do. -/
theorem Shaped.of_sublist {n n' : KnvNode} (h : Shaped n)
    (hf : n'.expanded = false → n'.metalist = [] ∧ n'.childlist = []) (hms : n'.metalist.Sublist n.metalist)
    (hcs : n'.childlist.Sublist n.childlist) (hslots : n'.slots = n.slots) (he : 0 ≤ n'.evalSz) : Shaped n' :=
  .mk (h.here.of_sublist hf ((hcs.append hms).map _) hslots he) (fun m hm => h.metas m (hms.subset hm)) fun c hc =>
    h.children c (hcs.subset hc)

theorem Shaped.linkChild {n c : KnvNode} (h : Shaped n) (hexp : n.expanded = true) (hc : Shaped c) (atTail : Bool) :
    Shaped (n.linkChild c atTail) := by
  refine .mk (shape_linkChild h.here hexp atTail) h.metas fun x hx => ?_
  have hc' : Shaped (c.at' n.slots) := All.at' (fun _ _ => shape_at'.mpr) hc
  have hmem : x ∈ n.childlist ∨ x = c.at' n.slots := by
    cases atTail <;> simpa [KnvNode.linkChild, or_comm] using hx
  rcases hmem with hx | rfl
  · exact h.children x hx
  · exact hc'

theorem Shaped.addMetaNode {n : KnvNode} (h : Shaped n) (hexp : n.expanded = true) (tag : UInt32) (type : PbType)
    (data : Option PbVal) : Shaped (n.addMetaNode tag type data) := by
  refine .mk (shape_addMetaNode h.here hexp tag type data) (fun x hx => ?_) h.children
  have hmem : x ∈ n.metalist ∨ x = (initNode tag type data true 0 true).at' n.slots := by
    simp only [KnvNode.addMetaNode] at hx
    split at hx <;> simpa [or_comm] using hx
  rcases hmem with hx | rfl
  · exact h.metas x hx
  · exact All.at' (fun _ _ => shape_at'.mpr) (shaped_initNode ..)

theorem metaAt_mem {n m : KnvNode} {tag : UInt32} (h : n.metaAt tag = some m) : m ∈ n.metalist := by
  unfold metaAt at h
  split at h
  · cases h
  · obtain ⟨a, _, hm⟩ := Option.bind_eq_some_iff.mp h
    exact List.mem_of_find?_eq_some hm

/-- A meta that is overwritten keeps its nodes or loses them. -/
theorem shaped_overwrite {m : KnvNode} (h : Shaped m) (tag : UInt32) (type : PbType) (data : Option PbVal)
    (isKey : Bool) : Shaped (m.overwrite tag type data isKey) := by
  unfold overwrite
  simp only
  split
  · exact h.of_sublist (fun _ => ⟨rfl, rfl⟩) (List.nil_sublist _) (List.nil_sublist _) rfl (Int.natCast_nonneg _)
  · next hexp =>
    exact h.of_sublist (fun hf => h.here.folded hf) (List.Sublist.refl _) (List.Sublist.refl _) rfl
      (Int.natCast_nonneg _)

theorem Shaped.setMetaNode {n m : KnvNode} (h : Shaped n) (hm : Shaped m) (hmem : ∃ x ∈ n.metalist, x.self = m.self) :
    Shaped (n.setMetaNode m) := by
  refine .mk (h.here.of_sublist (fun hf => ?_) ((addrs_setMetaNode n m).symm ▸ List.Sublist.refl _) rfl
    h.here.evaluated) (fun x hx => ?_) h.children
  · obtain ⟨x, hx, -⟩ := hmem
    exact absurd hx ((h.here.folded hf).1 ▸ List.not_mem_nil)
  · obtain ⟨y, hy, rfl⟩ := List.mem_map.mp hx
    split
    · exact hm
    · exact h.metas y hy

theorem keepsShape_setMetaInner {n : KnvNode} (h : Shaped n) (tag : UInt32) (type : PbType) (data : Option PbVal)
    (pl : Place) : KeepsShape n (n.setMetaInner tag type data true pl) := by
  refine setMetaInner_rule (fun _ _ => ⟨h, rfl⟩) fun _ _ _ n' hn' => ?_
  have h' : Shaped n' := hn' ▸ h.innerExpand ..
  have hself : n'.self = n.self := hn' ▸ (expandSame ..).self
  refine ⟨fun m hm => ?_, fun _ => ?_⟩
  · have hmem := metaAt_mem hm
    exact keepsShape_finish (h'.setMetaNode (shaped_overwrite (h'.metas m hmem) ..) ⟨m, hmem, by simp⟩) hself _
  · exact keepsShape_finish (h'.addMetaNode (hn' ▸ innerExpand_expanded ..) ..) hself _

theorem keepsShape_innerRemoveMeta {n : KnvNode} (h : Shaped n) (tag : UInt32) (pl : Place) :
    KeepsShape n (n.innerRemoveMeta tag pl) := by
  refine innerRemoveMeta_rule (fun _ _ => ⟨h, rfl⟩) fun _ _ n' hn' => ?_
  have h' : Shaped n' := hn' ▸ h.innerExpand ..
  have hself : n'.self = n.self := hn' ▸ (expandSame ..).self
  refine ⟨fun _ => ⟨h', hself⟩, fun m _ => keepsShape_finish ?_ (by exact hself) _⟩
  exact h'.of_sublist (fun hf => absurd hf (by simp [hn'])) List.eraseP_sublist (List.Sublist.refl _) rfl
    h'.here.evaluated

theorem keepsShape_setKey {n : KnvNode} (h : Shaped n) (ktype : PbType) (kval : Option PbVal) (pl : Place) :
    KeepsShape n (n.setKey ktype kval pl) := by
  refine setKey_rule fun n' hn' o ho => ?_
  have h' : Shaped n' := hn' ▸ h.of_sublist h.here.folded (List.Sublist.refl _) (List.Sublist.refl _) rfl
    h.here.evaluated
  have hself : n'.self = n.self := by rw [hn']
  have hkeep : KeepsShape n' o := by
    rcases ho with ⟨_, rfl⟩ | ⟨_, rfl⟩
    · exact keepsShape_setMetaInner h' ..
    · exact keepsShape_innerRemoveMeta h' ..
  refine ⟨fun _ => ⟨hkeep.1, hkeep.2.trans hself⟩, ?_, hkeep.2.trans hself⟩
  exact hkeep.1.of_sublist hkeep.1.here.folded (List.Sublist.refl _) (List.Sublist.refl _) rfl hkeep.1.here.evaluated

theorem shaped_toLink {c d : KnvNode} (h : Shaped c) {own : Bool} (hd : c.toLink own = .ok d) : Shaped d := by
  unfold toLink at hd
  split at hd
  · cases hd; exact h
  unfold innerDuplicate at hd
  split at hd
  · simp only at hd
    split at hd
    · cases hd
    split at hd
    · cases hd
    · cases hd; exact shaped_initNode ..
  · cases hd; exact shaped_initNode ..

/-- An insertion into an expanded node links the child, or its copy. -/
theorem insertChild_link {n child c : KnvNode} {own : Bool} (hv : n.isValid = true) (ht : n.type = .string)
    (hexp : n.expanded = true) (hc : child.toLink own = .ok c) (hsz : 0 ≤ c.evalSz) (pl : Place) :
    insertChild child own true pl n = (n.linkChild c true).finish c.evalSz := by
  unfold KnvNode.insertChild innerInsertChild
  rw [toLink] at hc
  simp only [hv, ht, innerExpand_of_expanded hexp]
  simp [hc, evaluateSize_of_nonneg hsz]

/-- A child of a node that is linked as it is. -/
theorem insertChild_own {n c : KnvNode} (hv : n.isValid = true) (ht : n.type = .string) (hexp : n.expanded = true)
    (hsz : 0 ≤ c.evalSz) (pl : Place) : insertChild c true true pl n = (n.linkChild c true).finish c.evalSz :=
  insertChild_link hv ht hexp rfl hsz pl

theorem keepsShape_insertChild {n c : KnvNode} (h : Shaped n) (hc : Shaped c) (own atTail : Bool) (pl : Place) :
    KeepsShape n (insertChild c own atTail pl n) := by
  refine insertChild_rule (fun _ => ⟨h, rfl⟩) fun _ _ n' hn' => ?_
  have h' : Shaped n' := hn' ▸ h.innerExpand ..
  have hself : n'.self = n.self := hn' ▸ (expandSame ..).self
  refine ⟨fun _ => ⟨h', hself⟩, fun d hd c' hc' => ?_⟩
  have hd' := shaped_toLink hc hd
  have hc'' : Shaped c' := by
    rw [hc', evaluateSize_of_nonneg hd'.here.evaluated]
    simpa using hd'
  exact keepsShape_finish (h'.linkChild (hn' ▸ innerExpand_expanded ..) hc'' atTail) hself _

theorem keepsShape_removeChildByPos {n : KnvNode} (h : Shaped n) (a : ℕ) (pos : Option ℕ) :
    KeepsShape n (n.removeChildByPos a pos) := by
  refine removeChildByPos_rule ⟨h, rfl⟩ fun c hc o ho => ?_
  have hmem := List.mem_of_find?_eq_some hc
  have hkeep : KeepsShape n o := by
    refine ho ▸ keepsShape_finish ?_ rfl _
    refine h.of_sublist (fun hf => ?_) (List.Sublist.refl _) List.eraseP_sublist rfl h.here.evaluated
    rw [(h.here.folded hf).2] at hmem
    exact absurd hmem List.not_mem_nil
  exact hkeep

theorem keepsShape_removeChild {n : KnvNode} (h : Shaped n) (t : UInt32) (k : Bytes) (pl : Place) :
    KeepsShape n (n.removeChild t k pl) := by
  refine removeChild_rule ⟨h, rfl⟩ fun _ n' hn' => ?_
  have h' : Shaped n' := hn' ▸ h.innerExpand ..
  have hself : n'.self = n.self := hn' ▸ (expandSame ..).self
  refine ⟨⟨h', hself⟩, fun a _ => ?_⟩
  have hkeep := keepsShape_removeChildByPos h' a (some (getKeyhash t k n'.ht.sz))
  exact ⟨hkeep.1, hkeep.2.trans hself⟩

theorem keepsShape_removeChildrenByTag {n : KnvNode} (h : Shaped n) (t : UInt32) (pl : Place) :
    KeepsShape n (n.removeChildrenByTag t pl) := by
  refine removeChildrenByTag_rule (fun _ => ⟨h, rfl⟩) fun _ n' hn' => ?_
  have h' : Shaped n' := hn' ▸ h.innerExpand ..
  have hself : n'.self = n.self := hn' ▸ (expandSame ..).self
  refine ⟨⟨h', hself⟩, fun matched _ _ o ho => ?_⟩
  have hkeep : KeepsShape n o := by
    refine ho ▸ keepsShape_finish ?_ (by exact hself) _
    exact h'.of_sublist (fun hf => absurd hf (by simp [hn'])) (List.Sublist.refl _) List.filter_sublist rfl
      h'.here.evaluated
  exact hkeep

theorem keepsShape_setValueStr {n : KnvNode} (h : Shaped n) (s : Bytes) : KeepsShape n (n.setValueStr s) := by
  refine setValueStr_rule (fun _ => ⟨h, rfl⟩) fun _ _ k evs _ n' hn' u hu => ?_
  have h' : Shaped n' := hn' ▸ h.of_sublist (fun _ => ⟨rfl, rfl⟩) (List.nil_sublist _) (List.nil_sublist _) rfl
    h.here.evaluated
  rw [if_pos h.here.evaluated] at hu
  have ht : Touched n' u.1 := hu ▸ touched_updateEvalSz ..
  exact ⟨h'.touched ht, ht.self.trans (by rw [hn'])⟩

theorem keepsShape_setTag {n : KnvNode} (h : Shaped n) (t : UInt32) : KeepsShape n (n.setTag t) := by
  refine setTag_rule (fun _ => ⟨h, rfl⟩) fun _ _ sz hsz => ⟨?_, rfl⟩
  refine h.of_sublist h.here.folded (List.Sublist.refl _) (List.Sublist.refl _) rfl ?_
  rw [if_pos h.here.evaluated] at hsz
  simp only [hsz]
  split <;> omega

theorem keepsShape_getValueOp {n : KnvNode} (h : Shaped n) : KeepsShape n n.getValueOp := by
  have heval := evaluateSize_of_nonneg h.here.evaluated
  refine getValueOp_rule (fun _ => ⟨h, rfl⟩) (fun _ => by rw [heval]; exact ⟨h, rfl⟩) (fun _ _ => ⟨h, rfl⟩) ?_
  intro _ _ n' out hn' _ _
  rw [heval] at hn'
  subst hn'
  exact ⟨h.of_sublist (fun _ => ⟨rfl, rfl⟩) (List.nil_sublist _) (List.nil_sublist _) rfl h.here.evaluated, rfl⟩

theorem keepsShape_expandOp {n : KnvNode} (h : Shaped n) (pl : Place) : KeepsShape n (n.expandOp pl) := by
  unfold expandOp expand
  split
  · exact ⟨h, rfl⟩
  · next n' hn' =>
    split at hn'
    · cases hn'
      exact ⟨h.innerExpand .., (expandSame ..).self⟩
    · cases hn'

end KnvNode

open KnvNode

/-- The nodes an operation is given have a property. -/
def Op.Given (P : KnvNode → Prop) : Op → Prop
  | insertChild child _ _ => P child
  | _ => True

/-- **An operation keeps the shape of the node's tree, and its address.** -/
theorem shaped_run {n : KnvNode} (h : Shaped n) (op : Op) (hop : op.Given Shaped) (pl : Place) :
    KeepsShape n (op.run pl n) := by
  cases op with
  | lookup => exact keepsShape_expandOp h pl
  | insertChild child own atTail => exact keepsShape_insertChild h hop own atTail pl
  | removeChild t k => exact keepsShape_removeChild h t k pl
  | removeChildrenByTag t => exact keepsShape_removeChildrenByTag h t pl
  | setTag t => exact keepsShape_setTag h t
  | setMeta tag type data =>
    exact setMeta_rule (P := KeepsShape n) (fun _ _ => keepsShape_setKey h ..) fun _ => keepsShape_setMetaInner h ..
  | removeMeta tag =>
    exact removeMeta_rule (P := KeepsShape n) (fun _ => keepsShape_setKey h ..) fun _ => keepsShape_innerRemoveMeta h ..
  | setValueInt v =>
    refine setValueInt_rule (P := KeepsShape n) (fun _ => ⟨h, rfl⟩) fun _ _ => ⟨?_, rfl⟩
    exact h.of_sublist h.here.folded (List.Sublist.refl _) (List.Sublist.refl _) rfl (Int.natCast_nonneg _)
  | setValueStr s _ => exact keepsShape_setValueStr h s
  | getValue => exact keepsShape_getValueOp h

namespace KnvNode

theorem shaped_treeWithKey (tag : UInt32) (k : KnvKey) : Shaped (treeWithKey tag k) :=
  .of_nil ((shape_initNode tag .string none true 0 false).of_sublist (fun _ => ⟨rfl, rfl⟩) (List.Sublist.refl _) rfl
    (Int.natCast_nonneg _)) rfl rfl

theorem shaped_newTree {tag : UInt32} {key : Option KnvKey} {n : KnvNode} (h : newTree tag key = .ok n) : Shaped n := by
  obtain ⟨-, k, -, ⟨-, rfl⟩ | ⟨-, rfl⟩⟩ := newTree_cases h
  · exact shaped_treeWithKey tag k
  · exact ((shaped_treeWithKey tag k).addMetaNode rfl ..).touched (touched_finish ..)

end KnvNode

/-! ### Operations at a path -/

namespace KnvNode

theorem All.slot {P : KnvNode → Prop} {n c : KnvNode} {s : Slot} (h : All P n) (hc : n.slot s = some c) : All P c := by
  cases s with
  | ofMeta i => exact h.metas c (List.mem_of_getElem? hc)
  | ofChild i => exact h.children c (List.mem_of_getElem? hc)

theorem slot_setSlot {n c c' : KnvNode} {s : Slot} (hc : n.slot s = some c) : (n.setSlot s c').slot s = some c' := by
  cases s with
  | ofMeta i =>
    have hlt : i < n.metalist.length := (List.getElem?_eq_some_iff.mp hc).1
    simp [slot, setSlot, hlt]
  | ofChild i =>
    have hlt : i < n.childlist.length := (List.getElem?_eq_some_iff.mp hc).1
    simp [slot, setSlot, hlt]

/-- A parent hears of the node that is in its slot now. -/
theorem notify_setSlot {n c c' : KnvNode} {s : Slot} (hc : n.slot s = some c) (msgs : List Ev) :
    hanging.notify (hanging.set n s c') s msgs = (n.setSlot s c').handleAll c'.self msgs := by
  simp only [hanging, slot_setSlot hc]

/-- A node of the tree is replaced: the property holds at the parent and in the new tree. -/
theorem All.setSlot {P : KnvNode → Prop} {n c' : KnvNode} {s : Slot} (h : All P n) (hn : P (n.setSlot s c'))
    (hc' : All P c') : All P (n.setSlot s c') := by
  cases s with
  | ofMeta i => exact .mk hn (fun m hm => (List.mem_or_eq_of_mem_set hm).elim (h.metas m) fun e => e ▸ hc') h.children
  | ofChild i => exact .mk hn h.metas fun c hc => (List.mem_or_eq_of_mem_set hc).elim (h.children c) fun e => e ▸ hc'

theorem Shaped.setSlot {n c c' : KnvNode} {s : Slot} (h : Shaped n) (hc : n.slot s = some c) (hc' : Shaped c')
    (hself : c'.self = c.self) : Shaped (n.setSlot s c') := by
  refine All.setSlot h ?_ hc'
  have hexp : (n.setSlot s c').expanded = n.expanded := by cases s <;> rfl
  refine h.here.of_sublist (fun hf => ?_) (addrs_setSlot hc hself ▸ List.Sublist.refl _) (by cases s <;> rfl)
    (by cases s <;> exact h.here.evaluated)
  obtain ⟨hms, hcs⟩ := h.here.folded (hexp ▸ hf)
  cases s <;> simp [KnvNode.slot, hms, hcs] at hc

/-- **Every operation at every path keeps the shape of the tree.** -/
theorem shaped_runAt {root : KnvNode} {op : Op} {path : List Slot} {out : Out} (h : Shaped root)
    (hop : op.Given Shaped) (hrun : op.runAt path root = some out) :
    Shaped out.node ∧ out.node.self = root.self := by
  refine editAt_rule (H := hanging) (fun _ n => Shaped n) (fun _ n n' _ => n'.self = n.self) (fun _ => True)
    (fun _ _ _ _ hn _ hc => All.slot hn hc) ?_ path {} root out (fun _ _ => trivial) h
    (fun pl t _ _ ht => shaped_run ht op hop pl) hrun
  intro _ n s c c' msgs hn _ hc hc' hself
  rw [notify_setSlot hc]
  have ht := touched_handleAll c'.self msgs (n.setSlot s c')
  exact ⟨(hn.setSlot hc hc' hself).touched ht, ht.self.trans (by cases s <;> rfl)⟩

/-- A function that is run on a child. -/
theorem onChild_at {t c : KnvNode} {i : ℕ} (hc : t.childlist[i]? = some c)
    (hidx : (t.childlist.findIdx fun x => x.self = c.self) = i) {f : Place → KnvNode → Out} {pl : Place} {o : Out}
    (ho : f (t.place (.ofChild i)) c = o) : t.onChild c.self f pl =
      some ⟨((t.setSlot (.ofChild i) o.node).handleAll o.node.self o.msgs).1,
        ((t.setSlot (.ofChild i) o.node).handleAll o.node.self o.msgs).2, o.ret⟩ := by
  have hget : hanging.get t (.ofChild i) = some c := hc
  have hctx : hanging.ctx t (.ofChild i) = t.place (.ofChild i) := rfl
  have hnot := @notify_setSlot _ _ o.node _ (show t.slot (.ofChild i) = some c from hc) o.msgs
  rw [onChild, hidx, editAt, hget, Option.bind_some, hctx, editAt_nil, Option.map_some, ho]
  exact congrArg some (by rw [hnot])

/-- Where the nodes have different addresses, a function on a child by its address runs on the child. -/
theorem Shape.onChild {n c : KnvNode} {i : ℕ} (h : Shape n) (hc : n.childlist[i]? = some c) {f : Place → KnvNode → Out}
    {pl : Place} {o : Out} (ho : f (n.place (.ofChild i)) c = o) : n.onChild c.self f pl =
      some ⟨((n.setSlot (.ofChild i) o.node).handleAll o.node.self o.msgs).1,
        ((n.setSlot (.ofChild i) o.node).handleAll o.node.self o.msgs).2, o.ret⟩ := by
  refine onChild_at hc ?_ ho
  obtain ⟨hi, rfl⟩ := List.getElem?_eq_some_iff.mp hc
  have hlt : (n.childlist.findIdx fun x => x.self = n.childlist[i].self) < n.childlist.length :=
    List.findIdx_lt_length_of_exists ⟨_, List.getElem_mem hi, decide_eq_true rfl⟩
  exact h.index_of_self hlt hi (of_decide_eq_true (List.findIdx_getElem (w := hlt)))

end KnvNode

end KnvProto
