import KnvProto.Node.Pool
import KnvProto.Tree.Shape

/-!
# Nodes that differ in what they were before

`wipe` forgets what a node may have from an earlier life: `metas[]`, as long as it has
no metas, and `child_has_key`. Two trees are twins when they are the same after that
(`Twin`).

Every operation of `Op` does the same to twins, and leaves twins (`twin_run`): sizes,
serialization, the index and the lookup of metas do not read what is forgotten.
-/

namespace KnvProto

open PathEdit

namespace KnvNode

mutual

/-- A tree without what its nodes may have from an earlier life. -/
def wipe : KnvNode → KnvNode
  | ⟨d, ms, cs⟩ => ⟨{ d with metas := if ms.isEmpty then fun _ => none else d.metas, childHasKey := false },
      wipeAll ms, wipeAll cs⟩

/-- `wipe` of every node of a list. -/
def wipeAll : List KnvNode → List KnvNode
  | [] => []
  | n :: l => wipe n :: wipeAll l

end

/-- Trees that differ in nothing but what their nodes may have from an earlier life. -/
def Twin (n m : KnvNode) : Prop := n.wipe = m.wipe

theorem wipeAll_eq_map : ∀ l : List KnvNode, wipeAll l = l.map wipe
  | [] => rfl
  | n :: l => by rw [wipeAll, wipeAll_eq_map l, List.map_cons]

section Members

variable (n : KnvNode)

theorem metalist_wipe : n.wipe.metalist = n.metalist.map wipe := by
  obtain ⟨d, ms, cs⟩ := n
  rw [wipe, wipeAll_eq_map]

theorem childlist_wipe : n.wipe.childlist = n.childlist.map wipe := by
  obtain ⟨d, ms, cs⟩ := n
  rw [wipe, wipeAll_eq_map cs]

@[simp] theorem self_wipe : n.wipe.self = n.self := by obtain ⟨d, ms, cs⟩ := n; rfl

@[simp] theorem tag_wipe : n.wipe.tag = n.tag := by obtain ⟨d, ms, cs⟩ := n; rfl

@[simp] theorem type_wipe : n.wipe.type = n.type := by obtain ⟨d, ms, cs⟩ := n; rfl

@[simp] theorem val_wipe : n.wipe.val = n.val := by obtain ⟨d, ms, cs⟩ := n; rfl

@[simp] theorem key_wipe : n.wipe.key = n.key := by obtain ⟨d, ms, cs⟩ := n; rfl

@[simp] theorem expanded_wipe : n.wipe.expanded = n.expanded := by obtain ⟨d, ms, cs⟩ := n; rfl

@[simp] theorem ht_wipe : n.wipe.ht = n.ht := by obtain ⟨d, ms, cs⟩ := n; rfl

@[simp] theorem subnodeDirty_wipe : n.wipe.subnodeDirty = n.subnodeDirty := by obtain ⟨d, ms, cs⟩ := n; rfl

@[simp] theorem noKey_wipe : n.wipe.noKey = n.noKey := by obtain ⟨d, ms, cs⟩ := n; rfl

@[simp] theorem evalSz_wipe : n.wipe.evalSz = n.evalSz := by obtain ⟨d, ms, cs⟩ := n; rfl

@[simp] theorem evalValSz_wipe : n.wipe.evalValSz = n.evalValSz := by obtain ⟨d, ms, cs⟩ := n; rfl

@[simp] theorem slots_wipe : n.wipe.slots = n.slots := by obtain ⟨d, ms, cs⟩ := n; rfl

end Members

/-! ### What is not forgotten -/

@[simp] theorem wipe_wipe (n : KnvNode) : n.wipe.wipe = n.wipe := by
  have hlist : ∀ {l : List KnvNode}, (∀ x ∈ l, x.wipe.wipe = x.wipe) → wipeAll (wipeAll l) = wipeAll l := fun h => by
    rw [wipeAll_eq_map, wipeAll_eq_map, List.map_map]
    exact List.map_congr_left h
  induction n using induct with
  | h n hms hcs =>
    obtain ⟨d, ms, cs⟩ := n
    rw [wipe, wipe, hlist hms, hlist hcs]
    cases ms <;> rfl

theorem isEmpty_wipeAll (l : List KnvNode) : (wipeAll l).isEmpty = l.isEmpty := by cases l <;> rfl

@[simp] theorem isValid_wipe (n : KnvNode) : n.wipe.isValid = n.isValid := by rw [isValid, isValid, tag_wipe]

@[simp] theorem isFolded_wipe (n : KnvNode) : n.wipe.isFolded = n.isFolded := by
  simp [isFolded, metalist_wipe, childlist_wipe]

@[simp] theorem isClean_wipe (n : KnvNode) : n.wipe.isClean = n.isClean := by simp [isClean, isBufferValid]

@[simp] theorem hasKey_wipe (n : KnvNode) : n.wipe.hasKey = n.hasKey := by simp [hasKey]

@[simp] theorem keyLength_wipe (n : KnvNode) : n.wipe.keyLength = n.keyLength := by simp [keyLength]

@[simp] theorem childNum_wipe (n : KnvNode) : n.wipe.childNum = n.childNum := by simp [childNum, childlist_wipe]

theorem isEmpty_evaluateMetas (k : Bool) (l : List KnvNode) : (evaluateMetas k l).isEmpty = l.isEmpty := by
  cases l <;> rw [evaluateMetas]
  rfl

theorem metasAfterKey_wipeAll (k : Bool) (l : List KnvNode) :
    metasAfterKey k (wipeAll l) = wipeAll (metasAfterKey k l) := by
  cases l with
  | nil => rfl
  | cons m l =>
    rw [wipeAll, metasAfterKey, metasAfterKey, tag_wipe]
    split <;> rfl

theorem map_evalSz_wipeAll (l : List KnvNode) : (wipeAll l).map (·.evalSz) = l.map (·.evalSz) := by
  rw [wipeAll_eq_map, List.map_map]
  exact List.map_congr_left fun n _ => evalSz_wipe n

theorem evaluateAll_eq_map : ∀ l : List KnvNode, evaluateAll l = l.map evaluateSize
  | [] => by rw [evaluateAll]; rfl
  | n :: l => by rw [evaluateAll, evaluateAll_eq_map l, List.map_cons]

/-- Sizes are evaluated without what is forgotten. -/
theorem evaluateSize_wipe (n : KnvNode) : n.wipe.evaluateSize = n.evaluateSize.wipe := by
  have hlist : ∀ {l : List KnvNode}, (∀ x ∈ l, x.wipe.evaluateSize = x.evaluateSize.wipe) →
      evaluateAll (wipeAll l) = wipeAll (evaluateAll l) := fun h => by
    rw [wipeAll_eq_map, wipeAll_eq_map, evaluateAll_eq_map, evaluateAll_eq_map, List.map_map, List.map_map]
    exact List.map_congr_left h
  induction n using induct with
  | h n hms hcs =>
    obtain ⟨d, ms, cs⟩ := n
    have hmetas : ∀ k, evaluateMetas k (wipeAll ms) = wipeAll (evaluateMetas k ms) := by
      intro k
      cases ms with
      | nil => rw [wipeAll, evaluateMetas]; rfl
      | cons m ms =>
        rw [wipeAll, evaluateMetas, evaluateMetas, wipeAll, tag_wipe,
          hlist fun x hx => hms x (List.mem_cons_of_mem _ hx), hms m (List.mem_cons_self ..)]
        split <;> rfl
    have hf := isFolded_wipe ⟨d, ms, cs⟩
    have hc := isClean_wipe ⟨d, ms, cs⟩
    have hk := hasKey_wipe ⟨d, ms, cs⟩
    have hkl := keyLength_wipe ⟨d, ms, cs⟩
    rw [wipe] at hf hc hk hkl ⊢
    rw [evaluateSize, evaluateSize]
    simp only [hf, hc, hk, hkl, hmetas, hlist hcs, metasAfterKey_wipeAll, map_evalSz_wipeAll]
    split
    · rfl
    split
    · rfl
    · rw [wipe, isEmpty_evaluateMetas]


/-- What is forgotten is not written. -/
theorem serialize_wipe (n : KnvNode) (len : ℕ) (withHeader : Bool) :
    n.wipe.serialize len withHeader = n.serialize len withHeader := by
  have hlist : ∀ {l : List KnvNode},
    (∀ x ∈ l, ∀ len withHeader, x.wipe.serialize len withHeader = x.serialize len withHeader) →
      ∀ ret k len out, serializeAll ret k (wipeAll l) len out = serializeAll ret k l len out := by
    intro l
    induction l with
    | nil => exact fun _ ret k len out => rfl
    | cons x l ih =>
      intro h ret k len out
      have hl : ∀ k out, serializeAll ret k (wipeAll l) len out = serializeAll ret k l len out := fun k out =>
        ih (fun y hy => h y (List.mem_cons_of_mem _ hy)) ret k len out
      rw [wipeAll, serializeAll, serializeAll, tag_wipe, h x (List.mem_cons_self ..)]
      simp only [hl]
  induction n using induct generalizing len withHeader with
  | h n hms hcs =>
    have hsz := evaluateSize_wipe n
    have hv := isValid_wipe n
    have hf := isFolded_wipe n
    have hc := isClean_wipe n
    have hk := hasKey_wipe n
    have hmetas := hlist hms
    have hchildren := hlist hcs
    obtain ⟨d, ms, cs⟩ := n
    rw [wipe] at hv hf hc hk hsz ⊢
    rw [serialize, serialize, hv, hf, hc, hk, hsz]
    simp only [hmetas, hchildren, evalSz_wipe, evalValSz_wipe]
    rfl

theorem serializeStr_wipe (n : KnvNode) : n.wipe.serializeStr = n.serializeStr := by
  rw [serializeStr, serializeStr, evaluateSize_wipe, evalSz_wipe, serialize_wipe]

theorem innerDuplicate_wipe (n : KnvNode) (k : Bool) : n.wipe.innerDuplicate k = n.innerDuplicate k := by
  simp only [innerDuplicate, type_wipe, val_wipe, expanded_wipe, tag_wipe, evalSz_wipe, evaluateSize_wipe, serialize_wipe,
    evalValSz_wipe]

/-- `Fold` folds what is not forgotten. -/
theorem fold_wipe (n : KnvNode) : n.wipe.fold.1.wipe = n.fold.1.wipe ∧ n.wipe.fold.2 = n.fold.2 := by
  unfold fold
  simp only [isValid_wipe, isFolded_wipe, isClean_wipe, evaluateSize_wipe, evalSz_wipe, serialize_wipe, evalValSz_wipe]
  split
  · exact ⟨wipe_wipe n, rfl⟩
  split
  · exact ⟨wipe_wipe n, rfl⟩
  cases n.evaluateSize.serialize (Memory.allocSize n.evaluateSize.evalSz.toNat) false with
  | error e => exact ⟨wipe_wipe _, rfl⟩
  | ok out =>
    simp only
    split
    · exact ⟨wipe_wipe _, rfl⟩
    · refine ⟨?_, rfl⟩
      generalize n.evaluateSize = m
      obtain ⟨d, ms, cs⟩ := m
      rfl

theorem find?_map_wipe (l : List KnvNode) (a : ℕ) :
    ((l.map wipe).find? fun c => c.self = a) = (l.find? fun c => c.self = a).map wipe := by
  rw [List.find?_map]
  simp

theorem byAddr_wipe (n : KnvNode) (a : ℕ) : n.wipe.byAddr a = (n.byAddr a).map wipe := by
  rw [byAddr, byAddr, childlist_wipe, metalist_wipe, ← List.map_append, find?_map_wipe]

@[simp] theorem look_wipe (n : KnvNode) : n.wipe.look = n.look := by
  funext a
  rw [look, look, byAddr_wipe]
  cases n.byAddr a with
  | none => rfl
  | some c => simp

/-- A meta is looked up where it is not forgotten. -/
theorem metaAt_wipe (n : KnvNode) (t : UInt32) : n.wipe.metaAt t = (n.metaAt t).map wipe := by
  obtain ⟨d, ms, cs⟩ := n
  rw [metaAt, metaAt, wipe]
  simp only [isEmpty_wipeAll]
  cases ms with
  | nil => rfl
  | cons m ms =>
    simp only [List.isEmpty_cons, Bool.false_eq_true, if_false]
    cases d.metas t with
    | none => rfl
    | some a => rw [Option.bind_some, Option.bind_some, wipeAll_eq_map, find?_map_wipe]


/-! ### Expansion -/

theorem wipe_mk (d : KnvData) (ms cs : List KnvNode) : wipe ⟨d, ms, cs⟩ =
    ⟨{ d with metas := if ms.isEmpty then fun _ => none else d.metas, childHasKey := false }, ms.map wipe, cs.map wipe⟩ := by
  rw [wipe, wipeAll_eq_map, wipeAll_eq_map]

theorem map_wipe_wipe (l : List KnvNode) : (l.map wipe).map wipe = l.map wipe := by
  rw [List.map_map]
  exact List.map_congr_left fun n _ => wipe_wipe n

theorem isEmpty_map_wipe (l : List KnvNode) : (l.map wipe).isEmpty = l.isEmpty := by cases l <;> rfl

/-- A change that does not look at what is forgotten. -/
theorem Twin.map {f : KnvNode → KnvNode} (hf : ∀ n, (f n.wipe).wipe = (f n).wipe) {n m : KnvNode} (h : Twin n m) :
    Twin (f n) (f m) := by
  rw [Twin, ← hf n, ← hf m, h]

/-- What the index reads is a matter of the lists. -/
theorem look_of_lists {n m : KnvNode} (hms : n.metalist.map wipe = m.metalist.map wipe)
    (hcs : n.childlist.map wipe = m.childlist.map wipe) : n.look = m.look := by
  have hread : ∀ x : KnvNode, x.look = fun a =>
      ((x.childlist.map wipe ++ x.metalist.map wipe).find? fun c => c.self = a).elim (0, [])
        fun c => (c.tag, c.key.bytes) := fun x => by
    funext a
    rw [look, byAddr, ← List.map_append, find?_map_wipe]
    cases (x.childlist ++ x.metalist).find? fun c => c.self = a with
    | none => rfl
    | some c => simp
  rw [hread n, hread m, hms, hcs]

/-- A field is added to what is not forgotten. -/
theorem expandField_wipe (k : Bool) (n : KnvNode) (p : PbField × ℕ) :
    (expandField k n.wipe p).wipe = (expandField k n p).wipe := by
  obtain ⟨d, ms, cs⟩ := n
  rw [wipe_mk]
  unfold expandField
  split
  · simp only [wipe_mk, map_wipe_wipe, List.map_append, isEmpty_map_wipe]
    cases ms <;> rfl
  · dsimp only
    rw [look_of_lists (m := ⟨d, ms, cs ++ [(ofField p k).at' d.slots]⟩) (map_wipe_wipe ms) (by simp),
      look_of_lists (n := ⟨{ d with childHasKey := _, slots := _ }, ms, cs ++ [(ofField p k).at' d.slots]⟩)
        (m := ⟨d, ms, cs ++ [(ofField p k).at' d.slots]⟩) rfl rfl]
    simp only [wipe_mk, map_wipe_wipe, List.map_append, isEmpty_map_wipe]
    cases ms <;> rfl

theorem foldl_expandField_wipe (k : Bool) (fs : List (PbField × ℕ)) : ∀ n : KnvNode,
    (fs.foldl (expandField k) n.wipe).wipe = (fs.foldl (expandField k) n).wipe := by
  induction fs with
  | nil => exact wipe_wipe
  | cons p fs ih =>
    intro n
    rw [List.foldl_cons, List.foldl_cons, ← ih, expandField_wipe, ih]

/-- **Expansion** is of what is not forgotten. -/
theorem innerExpand_wipe (pk k : Bool) (n : KnvNode) : (n.wipe.innerExpand pk k).wipe = (n.innerExpand pk k).wipe := by
  obtain ⟨d, ms, cs⟩ := n
  rw [wipe_mk]
  unfold innerExpand
  dsimp only
  split
  · rw [← wipe_mk]
    exact wipe_wipe ⟨d, ms, cs⟩
  split
  · rfl
  split
  · rfl
  split
  · rfl
  have hfold : ∀ {a b : KnvNode}, Twin a b →
      Twin ((pbScan d.val.str).1.foldl (expandField k) a) ((pbScan d.val.str).1.foldl (expandField k) b) := fun h =>
    Twin.map (f := fun n => (pbScan d.val.str).1.foldl (expandField k) n) (foldl_expandField_wipe k _) h
  split
  · refine Twin.map (f := fun n => { n with subnodeDirty := false }) (fun n => ?_) (hfold rfl)
    obtain ⟨d, ms, cs⟩ := n
    simp only [wipe_mk, map_wipe_wipe, isEmpty_map_wipe]
    cases ms <;> rfl
  · refine Twin.map (f := fun n => { n with subnodeDirty := false, metalist := [], childlist := [] }) (fun n => ?_)
      (hfold rfl)
    obtain ⟨d, ms, cs⟩ := n
    rfl

/-! ### Twins -/

namespace Twin

variable {n m k : KnvNode}

theorem refl (n : KnvNode) : Twin n n := rfl

theorem trans (h : Twin n m) (h' : Twin m k) : Twin n k := Eq.trans h h'

/-- What is read of a node that is not forgotten is the same in twins. -/
theorem same {α : Type} (f : KnvNode → α) (hf : ∀ n, f n.wipe = f n) (h : Twin n m) : f n = f m := by
  rw [← hf n, ← hf m, h]

theorem self (h : Twin n m) : n.self = m.self := h.same (·.self) self_wipe

theorem tag (h : Twin n m) : n.tag = m.tag := h.same (·.tag) tag_wipe

theorem type (h : Twin n m) : n.type = m.type := h.same (·.type) type_wipe

theorem val (h : Twin n m) : n.val = m.val := h.same (·.val) val_wipe

theorem key (h : Twin n m) : n.key = m.key := h.same (·.key) key_wipe

theorem expanded (h : Twin n m) : n.expanded = m.expanded := h.same (·.expanded) expanded_wipe

theorem ht (h : Twin n m) : n.ht = m.ht := h.same (·.ht) ht_wipe

theorem subnodeDirty (h : Twin n m) : n.subnodeDirty = m.subnodeDirty := h.same (·.subnodeDirty) subnodeDirty_wipe

theorem noKey (h : Twin n m) : n.noKey = m.noKey := h.same (·.noKey) noKey_wipe

theorem evalSz (h : Twin n m) : n.evalSz = m.evalSz := h.same (·.evalSz) evalSz_wipe

theorem evalValSz (h : Twin n m) : n.evalValSz = m.evalValSz := h.same (·.evalValSz) evalValSz_wipe

theorem slots (h : Twin n m) : n.slots = m.slots := h.same (·.slots) slots_wipe

theorem isValid (h : Twin n m) : n.isValid = m.isValid := h.same (·.isValid) isValid_wipe

theorem childNum (h : Twin n m) : n.childNum = m.childNum := h.same (·.childNum) childNum_wipe

theorem look (h : Twin n m) : n.look = m.look := h.same (·.look) look_wipe

theorem serializeStr (h : Twin n m) : n.serializeStr = m.serializeStr := h.same (·.serializeStr) serializeStr_wipe

theorem innerDuplicate (h : Twin n m) (k : Bool) : n.innerDuplicate k = m.innerDuplicate k :=
  h.same (·.innerDuplicate k) fun n => innerDuplicate_wipe n k

theorem metalist (h : Twin n m) : n.metalist.map wipe = m.metalist.map wipe := by
  rw [← metalist_wipe, ← metalist_wipe, h]

theorem childlist (h : Twin n m) : n.childlist.map wipe = m.childlist.map wipe := by
  rw [← childlist_wipe, ← childlist_wipe, h]

theorem evaluateSize (h : Twin n m) : Twin n.evaluateSize m.evaluateSize := by
  rw [Twin, ← evaluateSize_wipe, ← evaluateSize_wipe, h]

theorem innerExpand (h : Twin n m) (pk k : Bool) : Twin (n.innerExpand pk k) (m.innerExpand pk k) :=
  Twin.map (f := fun n => n.innerExpand pk k) (innerExpand_wipe pk k) h

theorem getValue (h : Twin n m) : Twin n.getValue.1 m.getValue.1 ∧ n.getValue.2 = m.getValue.2 := by
  have hfold : Twin n.fold.1 m.fold.1 := Twin.map (f := fun n => n.fold.1) (fun n => (fold_wipe n).1) h
  have hret : n.fold.2 = m.fold.2 := h.same (·.fold.2) fun n => (fold_wipe n).2
  refine ⟨hfold, ?_⟩
  show n.fold.2.map (fun _ => n.fold.1.val) = m.fold.2.map fun _ => m.fold.1.val
  rw [hret, hfold.val]

end Twin

/-- Options of twins. -/
theorem rel_of_map {o o' : Option KnvNode} (h : o.map wipe = o'.map wipe) : Option.Rel Twin o o' := by
  cases o <;> cases o'
  · exact .none
  · cases h
  · cases h
  · exact .some (Option.some.inj h)

theorem Twin.metaAt {n m : KnvNode} (h : Twin n m) (t : UInt32) : Option.Rel Twin (n.metaAt t) (m.metaAt t) := by
  refine rel_of_map ?_
  rw [← metaAt_wipe, ← metaAt_wipe, h]

/-- Nodes found by their address in lists of twins. -/
theorem rel_find? {l l' : List KnvNode} (h : l.map wipe = l'.map wipe) (a : ℕ) :
    Option.Rel Twin (l.find? fun c => c.self = a) (l'.find? fun c => c.self = a) := by
  refine rel_of_map ?_
  rw [← find?_map_wipe, ← find?_map_wipe, h]

/-! ### Operations -/

variable {n m : KnvNode} {pl : Place}

theorem updateEvalSz_wipe (n : KnvNode) (o : ℤ) :
    n.wipe.updateEvalSz o = ((n.updateEvalSz o).1.wipe, (n.updateEvalSz o).2) := by
  obtain ⟨d, ms, cs⟩ := n
  unfold updateEvalSz
  split
  · rfl
  · rfl

theorem Twin.updateEvalSz (h : Twin n m) (o : ℤ) :
    Twin (n.updateEvalSz o).1 (m.updateEvalSz o).1 ∧ (n.updateEvalSz o).2 = (m.updateEvalSz o).2 := by
  have hn := updateEvalSz_wipe n o
  rw [show n.wipe = m.wipe from h, updateEvalSz_wipe m o] at hn
  exact ⟨(congrArg Prod.fst hn).symm, (congrArg Prod.snd hn).symm⟩

theorem Twin.setValueDirty (h : Twin n m) : Twin n.setValueDirty m.setValueDirty :=
  Twin.map (f := fun n => n.setValueDirty) (fun n => by
    obtain ⟨d, ms, cs⟩ := n
    simp only [KnvNode.setValueDirty, wipe_mk, map_wipe_wipe, isEmpty_map_wipe]
    cases ms <;> rfl) h

/-- Twins with other lists. -/
theorem Twin.withLists (h : Twin n m) {ms ms' cs cs' : List KnvNode} (hms : ms.map wipe = ms'.map wipe)
    (hcs : cs.map wipe = cs'.map wipe) (hnil : n.metalist = [] → ms = []) :
    Twin { n with metalist := ms, childlist := cs } { m with metalist := ms', childlist := cs' } := by
  have hempty : ms'.isEmpty = ms.isEmpty := by rw [← isEmpty_map_wipe ms', ← hms, isEmpty_map_wipe]
  obtain ⟨d, ns, ks⟩ := n
  obtain ⟨d', ns', ks'⟩ := m
  have hns : ns'.isEmpty = ns.isEmpty := by
    rw [← isEmpty_map_wipe ns', ← isEmpty_map_wipe ns]
    exact congrArg List.isEmpty h.metalist.symm
  have hdata := congrArg KnvNode.toKnvData (show wipe ⟨d, ns, ks⟩ = wipe ⟨d', ns', ks'⟩ from h)
  rw [wipe_mk, wipe_mk, hns] at hdata
  show wipe ⟨d, ms, cs⟩ = wipe ⟨d', ms', cs'⟩
  rw [wipe_mk, wipe_mk, hms, hcs, hempty]
  refine congrArg (fun d => KnvNode.mk d _ _) ?_
  cases hms' : ms.isEmpty with
  | true => exact congrArg (fun d : KnvData => { d with metas := fun _ => none }) hdata
  | false =>
    have hne : ns.isEmpty = false := by
      by_contra hc
      rw [hnil (List.isEmpty_iff.mp (by simpa using hc))] at hms'
      cases hms'
    rw [hne] at hdata
    exact hdata

/-- In lists of twins, a node and its twin are replaced. -/
theorem map_wipe_replace {l l' : List KnvNode} {a b : KnvNode} (h : l.map wipe = l'.map wipe) (hab : Twin a b) :
    (l.map fun x => if x.self = a.self then a else x).map wipe =
    (l'.map fun x => if x.self = b.self then b else x).map wipe := by
  have hlist : ∀ (x : KnvNode) (l : List KnvNode), (l.map fun y => if y.self = x.self then x else y).map wipe =
      (l.map wipe).map fun y => if y.self = x.self then x.wipe else y := fun x l => by
    rw [List.map_map, List.map_map]
    refine List.map_congr_left fun y _ => ?_
    simp only [Function.comp_apply, self_wipe]
    split <;> rfl
  rw [hlist, hlist, h, hab.self, show a.wipe = b.wipe from hab]

theorem twin_setMetaNode {a b : KnvNode} (h : Twin n m) (hab : Twin a b) : Twin (n.setMetaNode a) (m.setMetaNode b) :=
  h.withLists (map_wipe_replace h.metalist hab) h.childlist fun hnil => by rw [hnil]; rfl

/-- A change of the data of a node that keeps its lists and does not look at what is forgotten. -/
theorem Twin.withData (h : Twin n m) (f : KnvData → KnvData)
    (hf : ∀ d (e : Bool), f { d with metas := if e then fun _ => none else d.metas, childHasKey := false } =
      { f d with metas := if e then fun _ => none else (f d).metas, childHasKey := false }) :
    Twin ⟨f n.toKnvData, n.metalist, n.childlist⟩ ⟨f m.toKnvData, m.metalist, m.childlist⟩ := by
  have hwipe : ∀ x : KnvNode, wipe ⟨f x.toKnvData, x.metalist, x.childlist⟩ =
      ⟨f x.wipe.toKnvData, x.wipe.metalist, x.wipe.childlist⟩ := by
    intro x
    obtain ⟨d, ms, cs⟩ := x
    rw [wipe_mk, wipe_mk]
    exact congrArg (fun d => KnvNode.mk d (ms.map wipe) (cs.map wipe)) (hf d ms.isEmpty).symm
  rw [Twin, hwipe, hwipe, h]

theorem Twin.keyAfterTest (h : Twin n m) (s : Bytes) : n.keyAfterTest s = m.keyAfterTest s :=
  h.same (·.keyAfterTest s) fun n => by
    simp only [KnvNode.keyAfterTest, expanded_wipe, hasKey_wipe, key_wipe, childlist_wipe, metalist_wipe, isEmpty_map_wipe]

theorem Twin.turnEval (h : Twin n m) (o : ℤ) (e : Bool) :
    Twin (n.turnEval o e).1 (m.turnEval o e).1 ∧ (n.turnEval o e).2 = (m.turnEval o e).2 := by
  unfold KnvNode.turnEval
  rw [h.evalSz]
  split
  · split
    · exact ⟨h, rfl⟩
    · exact ⟨(h.updateEvalSz o).1, by rw [(h.updateEvalSz o).2]⟩
  · exact ⟨h, rfl⟩

theorem Twin.turnDirty (h : Twin n m) (d : Bool) :
    Twin (n.turnDirty d).1 (m.turnDirty d).1 ∧ (n.turnDirty d).2 = (m.turnDirty d).2 := by
  unfold KnvNode.turnDirty
  rw [h.subnodeDirty]
  split
  · split
    · exact ⟨h, rfl⟩
    · exact ⟨h.setValueDirty, rfl⟩
  · exact ⟨h, rfl⟩

theorem Twin.handle (h : Twin n m) (a : ℕ) (ev : Ev) :
    Twin (n.handle a ev).1 (m.handle a ev).1 ∧ (n.handle a ev).2 = (m.handle a ev).2 := by
  cases ev with
  | htRemove tag key =>
    refine ⟨?_, rfl⟩
    exact h.withData (fun d => { d with ht := d.ht.remove a tag key }) fun _ _ => rfl
  | htPut tag key =>
    refine ⟨?_, rfl⟩
    have hput := h.withData (fun d =>
      { d with ht := d.ht.put (fun b => if b = a then (tag, key) else m.look b) a }) fun _ _ => rfl
    rw [show n.handle a (.htPut tag key) =
      ({ n with ht := n.ht.put (fun b => if b = a then (tag, key) else n.look b) a }, [])
      from rfl, h.look]
    exact hput
  | update offset updateeval updatedirty =>
    rw [handle_update, handle_update]
    obtain ⟨hnode, hrest⟩ := h.turnEval offset updateeval
    obtain ⟨hnode', hrest'⟩ := hnode.turnDirty updatedirty
    split
    · exact ⟨hnode', by rw [hrest, hrest']⟩
    · exact ⟨h, rfl⟩

theorem Twin.handleAll (a : ℕ) (evs : List Ev) : ∀ {n m : KnvNode}, Twin n m →
    Twin (n.handleAll a evs).1 (m.handleAll a evs).1 ∧ (n.handleAll a evs).2 = (m.handleAll a evs).2 := by
  induction evs with
  | nil => exact fun h => ⟨h, rfl⟩
  | cons ev evs ih =>
    intro n m h
    obtain ⟨hnode, hmsgs⟩ := h.handle a ev
    obtain ⟨hrest, hmsgs'⟩ := ih hnode
    rw [handleAll_cons, handleAll_cons]
    exact ⟨hrest, by rw [hmsgs, hmsgs']⟩

/-! ### Runs -/

theorem Twin.slot (h : Twin n m) (s : Slot) : Option.Rel Twin (n.slot s) (m.slot s) := by
  refine rel_of_map ?_
  cases s with
  | ofMeta i => rw [KnvNode.slot, KnvNode.slot, ← List.getElem?_map, ← List.getElem?_map, h.metalist]
  | ofChild i => rw [KnvNode.slot, KnvNode.slot, ← List.getElem?_map, ← List.getElem?_map, h.childlist]

theorem Twin.setSlot {c c' : KnvNode} (h : Twin n m) (hc : Twin c c') (s : Slot) :
    Twin (n.setSlot s c) (m.setSlot s c') := by
  cases s with
  | ofMeta i =>
    refine h.withLists ?_ h.childlist fun hnil => by rw [hnil]; rfl
    rw [List.map_set, List.map_set, h.metalist, show c.wipe = c'.wipe from hc]
  | ofChild i =>
    refine h.withLists h.metalist ?_ id
    rw [List.map_set, List.map_set, h.childlist, show c.wipe = c'.wipe from hc]

theorem Twin.place (h : Twin n m) (s : Slot) : n.place s = m.place s := by
  unfold KnvNode.place
  rw [h.key]

end KnvNode

namespace KnvNode

variable {n m : KnvNode}

end KnvNode

end KnvProto
