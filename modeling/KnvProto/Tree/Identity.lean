import KnvProto.Tree.Duplicate

/-!
# Identity

What `SetValue` of a string makes of a node that has a key. A node is found by its parent under its tag and key, and
the key is the first field of its value: a new value brings its key along.

The source reads the key of the new value twice. The first time it is to be compared with the old one, for a node that
has been looked into, and is read into the node's own key; the comparison is with a variable that nothing was read
into.

## The model

A node and its parent are named by a path. `Live` is what holds of every node of every run: a node that is not valid has
no children, and one that may have no key has none.
-/

namespace KnvProto

open PathEdit

/-- The key that bytes begin with: the first field, if its tag is 1. -/
def firstKey (s : Bytes) : Option KnvKey :=
  match pbBegin s with
  | some (f, _) => if f.tag = 1 then some (KnvKey.init f.type (some f.val)) else none
  | none => none

namespace KnvNode

/-! ### What holds of every node -/

/-- What holds of every node of a run. -/
structure Live (n : KnvNode) : Prop where
  /-- Only a valid node gets children. -/
  valid : n.isValid = false → n.childlist = []
  /-- Where no key may be, there is none. -/
  keyless : n.noKey = true → n.key.bytes = []

variable {n n' : KnvNode} {pl : Place}

/-- A node of a tree is replaced by one whose nodes are among the old ones, or are fine. -/
theorem All.relist {P : KnvNode → Prop} (h : All P n) (hn : P n') (hms : ∀ m ∈ n'.metalist, m ∈ n.metalist ∨ All P m)
    (hcs : ∀ c ∈ n'.childlist, c ∈ n.childlist ∨ All P c) : All P n' :=
  .mk hn (fun m hm => (hms m hm).elim (h.metas m) id) fun c hc => (hcs c hc).elim (h.children c) id

/-- Whatever happens to the lists of a valid node. -/
theorem Live.same (h : Live n) (hv : n.isValid = true) (htag : n'.tag = n.tag) (hkey : n'.key = n.key)
    (hno : n'.noKey = n.noKey) : Live n' where
  valid hinv := by
    rw [isValid, htag] at hinv
    exact absurd (hinv.symm.trans hv) Bool.noConfusion
  keyless hn := by
    rw [hkey]
    exact h.keyless (hno ▸ hn)

/-- The nodes of a valid node are among the old ones. -/
theorem All.live (h : All Live n) (hv : n.isValid = true) (htag : n'.tag = n.tag) (hkey : n'.key = n.key)
    (hno : n'.noKey = n.noKey) (hms : n'.metalist.Sublist n.metalist) (hcs : n'.childlist.Sublist n.childlist) :
    All Live n' :=
  h.relist (h.here.same hv htag hkey hno) (fun _ hm => .inl (hms.subset hm)) fun _ hc => .inl (hcs.subset hc)

theorem All.live_touched (h : All Live n) (ht : Touched n n') : All Live n' :=
  h.touched ht ⟨fun hinv => ht.childlist ▸ h.here.valid (by rwa [isValid, ht.tag] at hinv),
    fun hno => ht.key ▸ h.here.keyless (ht.noKey ▸ hno)⟩

theorem live_initNode (tag : UInt32) (type : PbType) (value : Option PbVal) (updateEval : Bool) (fieldSz : ℕ)
    (forceNoKey : Bool) : Live (initNode tag type value updateEval fieldSz forceNoKey) := by
  refine ⟨fun _ => rfl, fun hno => ?_⟩
  have hno' : forceNoKey = true ∨ type ≠ .string := by simpa [initNode] using hno
  simp only [initNode]
  rcases hno' with h | h
  · simp [h]
  · simp [h]

theorem live_at' (a : ℕ) (h : Live n) : Live (n.at' a) := ⟨h.valid, h.keyless⟩

theorem All.live_innerExpand (h : All Live n) (hv : n.isValid = true) (pk : Bool) : All Live (n.innerExpand pk false) := by
  obtain ⟨-, htag, -, -, hkey, hno, -, -⟩ := expandSame pk false n
  exact h.innerExpand (h.here.same hv htag hkey hno) fun _ _ _ _ => live_at' _ (live_initNode ..)

theorem valid_innerExpand (hv : n.isValid = true) (pk : Bool) : (n.innerExpand pk false).isValid = true := by
  rw [isValid, (expandSame ..).tag]
  exact hv

/-- A function that has changed the lists of a valid node and ends. -/
theorem All.live_finish (h : All Live n) (o : ℤ) : All Live (n.finish o).node := h.live_touched (touched_finish n o)

/-! ### Operations -/

theorem live_overwrite {m : KnvNode} (h : All Live m) (tag : UInt32) (type : PbType) (data : Option PbVal) (isKey : Bool) :
    All Live (m.overwrite tag type data isKey) := by
  rw [overwrite_eq]
  by_cases hexp : m.expanded = true
  · simp only [hexp, if_true]
    exact .mk ⟨fun _ => rfl, h.here.keyless⟩ (fun _ hm => absurd hm List.not_mem_nil) fun _ hc => absurd hc List.not_mem_nil
  · simp only [Bool.not_eq_true] at hexp
    simp only [hexp, Bool.false_eq_true, if_false]
    exact .mk ⟨h.here.valid, h.here.keyless⟩ h.metas h.children

theorem live_setMetaInner (h : All Live n) (tag : UInt32) (type : PbType) (data : Option PbVal) (pl : Place) :
    All Live (n.setMetaInner tag type data true pl).node := by
  refine setMetaInner_rule (P := fun o => All Live o.node) (fun _ _ => h) fun hv _ _ n' hn' => ?_
  subst hn'
  have h' := h.live_innerExpand hv pl.parentKeyed
  have hv' := valid_innerExpand hv pl.parentKeyed
  refine ⟨fun m hm => All.live_finish ?_ _, fun _ => All.live_finish ?_ _⟩
  · refine h'.relist (h'.here.same hv' rfl rfl rfl) (fun x hx => ?_) fun _ hc => .inl hc
    obtain ⟨y, hy, rfl⟩ := List.mem_map.mp hx
    split
    · exact .inr (live_overwrite (h'.metas m (metaAt_mem hm)) ..)
    · exact .inl hy
  · refine h'.relist (h'.here.same hv' rfl rfl rfl) (fun x hx => ?_) fun _ hc => .inl hc
    simp only [addMetaNode] at hx
    have hmem : x ∈ (n.innerExpand pl.parentKeyed false).metalist ∨
        x = (initNode tag type data true 0 true).at' (n.innerExpand pl.parentKeyed false).slots := by
      split at hx <;> simpa [or_comm] using hx
    rcases hmem with hx | rfl
    · exact .inl hx
    · exact .inr (.of_nil (live_at' _ (live_initNode ..)) rfl rfl)

theorem live_innerRemoveMeta (h : All Live n) (tag : UInt32) (pl : Place) : All Live (n.innerRemoveMeta tag pl).node := by
  refine innerRemoveMeta_rule (P := fun o => All Live o.node) (fun _ _ => h) fun hv _ n' hn' => ?_
  subst hn'
  have h' := h.live_innerExpand hv pl.parentKeyed
  have hv' := valid_innerExpand hv pl.parentKeyed
  refine ⟨fun _ => h', fun m _ => All.live_finish ?_ _⟩
  exact h'.live hv' rfl rfl rfl List.eraseP_sublist (List.Sublist.refl _)

/-- A node that has been refused, or may have a key from now on. -/
theorem live_setKey (h : All Live n) (ktype : PbType) (kval : Option PbVal) (hno : n.noKey = false ∨ kval = none)
    (pl : Place) :
    All Live (n.setKey ktype kval pl).node := by
  refine setKey_rule (P := fun o => All Live o.node) fun n' hn' o ho => ?_
  have h' : All Live n' := by
    subst hn'
    refine .mk ⟨h.here.valid, fun hkey => ?_⟩ h.metas h.children
    rcases hno with hno | hno
    · exact absurd (hno.symm.trans hkey) Bool.noConfusion
    · rw [hno]
      rfl
  have hlive : All Live o.node := by
    rcases ho with ⟨-, rfl⟩ | ⟨-, rfl⟩
    · exact live_setMetaInner h' ..
    · exact live_innerRemoveMeta h' ..
  exact ⟨fun _ => hlive, .mk ⟨hlive.here.valid, fun hkey => nomatch hkey⟩ hlive.metas hlive.children⟩

theorem live_toLink {c d : KnvNode} (h : All Live c) {own : Bool} (hd : c.toLink own = .ok d) : All Live d := by
  unfold toLink at hd
  split at hd
  · cases hd
    exact h
  unfold innerDuplicate at hd
  split at hd
  · simp only at hd
    split at hd
    · cases hd
    split at hd
    · cases hd
    · cases hd
      exact .of_nil (live_initNode ..) rfl rfl
  · cases hd
    exact .of_nil (live_initNode ..) rfl rfl

theorem live_insertChild {c : KnvNode} (h : All Live n) (hc : All Live c) (hs : Shaped c) (own atTail : Bool) (pl : Place) :
    All Live (insertChild c own atTail pl n).node := by
  refine insertChild_rule (P := fun o => All Live o.node) (fun _ => h) fun hv _ n' hn' => ?_
  subst hn'
  have h' := h.live_innerExpand hv pl.parentKeyed
  have hv' := valid_innerExpand hv pl.parentKeyed
  refine ⟨fun _ => h', fun d hd c' hc' => All.live_finish ?_ _⟩
  refine h'.relist (h'.here.same hv' rfl rfl rfl) (fun _ hm => .inl hm) fun x hx => ?_
  have hd' : All Live (c'.at' (n.innerExpand pl.parentKeyed false).slots) := by
    rw [hc', evaluateSize_of_nonneg (shaped_toLink hs hd).here.evaluated, ite_self]
    exact All.at' (fun _ _ => live_at' _) (live_toLink hc hd)
  have hmem : x ∈ (n.innerExpand pl.parentKeyed false).childlist ∨
      x = c'.at' (n.innerExpand pl.parentKeyed false).slots := by
    cases atTail <;> simpa [linkChild, or_comm] using hx
  rcases hmem with hx | rfl
  · exact .inl hx
  · exact .inr hd'

theorem live_removeChildByPos (h : All Live n) (hv : n.isValid = true) (a : ℕ) (pos : Option ℕ) :
    All Live (n.removeChildByPos a pos).node := by
  refine removeChildByPos_rule (P := fun o => All Live o.node) h fun c _ o ho => ?_
  subst ho
  refine All.live_finish ?_ _
  exact h.live hv rfl rfl rfl (List.Sublist.refl _) List.eraseP_sublist

theorem live_setValueStr (h : All Live n) (s : Bytes) : All Live (n.setValueStr s).node := by
  refine setValueStr_rule (P := fun o => All Live o.node) (fun _ => h) fun hv _ k evs hk n' hn' u hu => ?_
  have hn : All Live n' := by
    subst hn'
    refine .of_nil ⟨fun _ => rfl, fun hno => ?_⟩ rfl rfl
    rcases hk with ⟨hno', -⟩ | ⟨-, rfl, -⟩
    · exact absurd (hno'.symm.trans hno) Bool.noConfusion
    · have hkey : n.keyAfterTest s = n.key := by
        have hno' : n.noKey = true := hno
        simp [keyAfterTest, hasKey, hno']
      rw [hkey]
      exact h.here.keyless hno
  have ht : Touched n' u.1 := by
    rw [hu]
    split
    · exact touched_updateEvalSz ..
    · exact .refl _
  exact hn.live_touched ht

theorem live_setTag (h : All Live n) (t : UInt32) : All Live (n.setTag t).node := by
  refine setTag_rule (P := fun o => All Live o.node) (fun _ => h) fun ht _ sz _ => ?_
  refine .mk ⟨fun hinv => ?_, h.here.keyless⟩ h.metas h.children
  exact absurd hinv (by simp [isValid, ht])

theorem live_getValueOp (h : All Live n) (hs : Shaped n) : All Live n.getValueOp.node := by
  have heval := evaluateSize_of_nonneg hs.here.evaluated
  refine getValueOp_rule (P := fun o => All Live o.node) (fun _ => h) (fun _ => by rw [heval]; exact h) (fun _ _ => h) ?_
  intro _ _ n' out hn' _ _
  rw [heval] at hn'
  subst hn'
  exact .of_nil ⟨fun _ => rfl, h.here.keyless⟩ rfl rfl

/-- **An operation leaves live nodes.** -/
theorem live_run (h : All Live n) (hs : Shaped n) (op : Op) (hop : op.Given fun c => All Live c ∧ Shaped c) (pl : Place) :
    All Live (op.run pl n).node := by
  cases op with
  | lookup =>
    show All Live (n.expandOp pl).node
    unfold expandOp expand
    by_cases hv : n.isValid = true
    · rw [if_pos hv]
      exact h.live_innerExpand hv _
    · rw [if_neg hv]
      exact h
  | insertChild c own atTail => exact live_insertChild h hop.1 hop.2 own atTail pl
  | removeChild t k =>
    refine removeChild_rule (P := fun o => All Live o.node) h fun hv n' hn' => ?_
    subst hn'
    have h' := h.live_innerExpand hv pl.parentKeyed
    exact ⟨h', fun a _ => live_removeChildByPos h' (valid_innerExpand hv _) a _⟩
  | removeChildrenByTag t =>
    refine removeChildrenByTag_rule (P := fun o => All Live o.node) (fun _ => h) fun hv n' hn' => ?_
    subst hn'
    have h' := h.live_innerExpand hv pl.parentKeyed
    refine ⟨h', fun matched _ _ o ho => ?_⟩
    subst ho
    refine All.live_finish ?_ _
    exact h'.live (valid_innerExpand hv _) rfl rfl rfl (List.Sublist.refl _) List.filter_sublist
  | setTag t => exact live_setTag h t
  | setMeta tag type data =>
    exact setMeta_rule (P := fun o => All Live o.node) (fun hno _ => live_setKey h _ _ (.inl hno) _) fun _ =>
      live_setMetaInner h ..
  | removeMeta tag =>
    exact removeMeta_rule (P := fun o => All Live o.node) (fun _ => live_setKey h _ _ (.inr rfl) _) fun _ =>
      live_innerRemoveMeta h ..
  | setValueInt v =>
    refine setValueInt_rule (P := fun o => All Live o.node) (fun _ => h) fun hv _ => ?_
    exact h.live hv rfl rfl rfl (List.Sublist.refl _) (List.Sublist.refl _)
  | setValueStr s _ => exact live_setValueStr h s
  | getValue => exact live_getValueOp h hs

/-- An operation at a path leaves live nodes. -/
theorem live_runAt {root : KnvNode} {op : Op} {path : List Slot} {out : Out} (h : All Live root) (hs : Shaped root)
    (hop : op.Given fun c => All Live c ∧ Shaped c) (hrun : op.runAt path root = some out) : All Live out.node := by
  have hgiven : op.Given Shaped := by
    cases op with
    | insertChild => exact hop.2
    | _ => trivial
  refine (editAt_rule (H := hanging) (fun _ n => All Live n ∧ Shaped n) (fun _ n n' _ => n'.self = n.self) (fun _ => True)
    (fun _ _ _ _ hn _ hc => ⟨All.slot hn.1 hc, All.slot hn.2 hc⟩) ?_ path {} root out (fun _ _ => trivial) ⟨h, hs⟩
    (fun pl t _ _ ht => ?_) hrun).1.1
  · intro _ n s c c' msgs hn _ hc hc' hself
    rw [notify_setSlot hc]
    have ht := touched_handleAll c'.self msgs (n.setSlot s c')
    have hlive : Live (n.setSlot s c') := by
      refine ⟨fun hinv => ?_, fun hno => ?_⟩
      · have hnil : n.childlist = [] := hn.1.here.valid (by cases s <;> exact hinv)
        cases s <;> simp [hnil]
      · cases s <;> exact hn.1.here.keyless hno
    exact ⟨⟨(All.setSlot hn.1 hlive hc'.1).live_touched ht, (hn.2.setSlot hc hc'.2 hself).touched ht⟩,
      ht.self.trans (by cases s <;> rfl)⟩
  · have hk := shaped_run ht.2 op hgiven pl
    exact ⟨⟨live_run ht.1 ht.2 op hop pl, hk.1⟩, hk.2⟩

/-- The nodes of every run are live. -/
theorem live_of_run {Ok : List Slot → Place → KnvNode → Op → Prop} {root : KnvNode} (h : TreeRun Ok root) :
    All Live root := by
  induction h with
  | newFromBytes h =>
    unfold newFromBytes at h
    split at h
    · cases h
    · cases h
      exact .of_nil (live_initNode ..) rfl rfl
  | @newTree tag key n h =>
    have hempty : ∀ k, All Live (treeWithKey tag k) := fun k => .of_nil ⟨fun _ => rfl, fun hno => nomatch hno⟩ rfl rfl
    obtain ⟨htag, k, -, ⟨-, rfl⟩ | ⟨-, rfl⟩⟩ := newTree_cases h
    · exact hempty k
    · refine All.live_finish ?_ _
      refine (hempty k).relist ((hempty k).here.same ?_ rfl rfl rfl) (fun m hm => .inr ?_) fun _ hc => .inl hc
      · simpa [isValid, treeWithKey, initNode] using htag
      · have hm' : m ∈ [(initNode 1 k.type (some k.getValue) true 0 true).at' 0] := hm
        rw [List.mem_singleton.mp hm']
        exact .of_nil (live_at' _ (live_initNode ..)) rfl rfl
  | newLeaf h =>
    obtain ⟨-, ⟨-, rfl⟩ | ⟨k, hk, -⟩⟩ := new_cases h
    · exact .of_nil (live_initNode ..) rfl rfl
    · cases hk
  | @step _ op _ _ hroot hgiven _ hrun ih ihc =>
    refine live_runAt ih (shaped_of_run hroot) ?_ hrun
    cases op with
    | insertChild child own atTail => exact ⟨ihc child own atTail rfl, shaped_of_run (hgiven child own atTail rfl)⟩
    | _ => trivial

/-! ### A new value -/

/-- What is expected of `SetValue(s)`, of a node `n` with a key below `p`, that leaves `n'` and `p'`. -/
structure KeepsIdentity (s : Bytes) (p n p' n' : KnvNode) (ret : Except KnvErr ℕ) : Prop where
  /-- A value that begins with the key of the node is taken, and the node is found as before. -/
  same : ∀ r, ret = .ok r → firstKey s = some n.key →
    n'.key = n.key ∧ n'.val = { str := s } ∧ ∀ pl, p'.findChild n.tag n.key.bytes pl = (p', some n'.self)
  /-- A node with children refuses a value that begins with another key. -/
  other : n.expanded = true → n.childlist ≠ [] → (∃ k, firstKey s = some k ∧ k ≠ n.key) →
    (∃ e, ret = .error e) ∧ n' = n ∧ p' = p

/-- The new value is taken, and its key is compared with the wrong one: the node has been looked into, and has
children or nothing below it. -/
def MisreadsKey (n : KnvNode) (s : Bytes) : Prop :=
  n.isValid = true ∧ n.type = .string ∧ n.expanded = true ∧ (n.childlist ≠ [] ∨ n.metalist = []) ∧
    ∃ k, firstKey s = some k ∧ (k = n.key ∨ n.childlist ≠ [])

theorem ofBytes_of_firstKey {s : Bytes} {k : KnvKey} (h : firstKey s = some k) : KnvKey.ofBytes s = k := by
  cases hbegin : pbBegin s with
  | none => simp [firstKey, hbegin] at h
  | some p =>
    simp only [firstKey, hbegin] at h
    split at h
    · next htag =>
      cases h
      simp [KnvKey.ofBytes, hbegin, htag]
    · cases h

/-- The test for an unchanged key is made. -/
def testsKey (n : KnvNode) : Bool := n.expanded && (!n.childlist.isEmpty || n.metalist.isEmpty)

theorem testsKey_iff : n.testsKey = true ↔ n.expanded = true ∧ (n.childlist ≠ [] ∨ n.metalist = []) := by
  simp [testsKey]

/-- The test leaves a node without key when the new value begins with one. -/
theorem keyAfterTest_lost {s : Bytes} {k : KnvKey} (ht : n.testsKey = true) (hk : n.hasKey = true)
    (hs : firstKey s = some k) :
    n.keyAfterTest s = {} := by
  have htest : (n.expanded && (!n.childlist.isEmpty || n.metalist.isEmpty) && n.hasKey) = true := by
    rw [hk, Bool.and_true]
    exact ht
  cases hbegin : pbBegin s with
  | none => simp [firstKey, hbegin] at hs
  | some p =>
    simp only [firstKey, hbegin] at hs
    split at hs
    · next htag =>
      unfold keyAfterTest
      rw [if_pos htest]
      simp [hbegin, htag]
    · cases hs

theorem keyAfterTest_kept {s : Bytes} (ht : n.testsKey = false) : n.keyAfterTest s = n.key := by
  unfold keyAfterTest
  rw [if_neg]
  intro h
  rw [Bool.and_eq_true] at h
  exact absurd (ht.symm.trans h.1) Bool.noConfusion

/-- What `SetValue` does to a node that keeps its key through the test, and gets a value with the key `k`. -/
theorem setValueStr_keyed {s : Bytes} {k : KnvKey} (hv : n.isValid = true) (ht : n.type = .string) (hsz : 0 ≤ n.evalSz)
    (htest : n.testsKey = false) (hk : n.hasKey = true) (hs : firstKey s = some k) :
    ∃ offset, (n.setValueStr s).msgs = [.htRemove n.tag n.key.bytes, .htPut n.tag k.bytes, updateParent offset] ∧
      (n.setValueStr s).ret = .ok 0 ∧ (n.setValueStr s).node.self = n.self ∧ (n.setValueStr s).node.key = k ∧
      (n.setValueStr s).node.tag = n.tag ∧ (n.setValueStr s).node.val = { str := s } := by
  unfold setValueStr
  rw [if_neg (by simp [hv]), if_neg (not_not_intro ht)]
  have hhas : ({ n with val := { str := s } } : KnvNode).hasKey = true := hk
  simp only [keyAfterTest_kept htest, ofBytes_of_firstKey hs]
  simp only [hhas, if_true, if_pos hsz, List.cons_append, List.nil_append]
  refine ⟨_, rfl, trivial, ?_, ?_, ?_, ?_⟩
  · exact (touched_updateEvalSz ..).self
  · exact (touched_updateEvalSz ..).key
  · exact (touched_updateEvalSz ..).tag
  · unfold updateEvalSz
    split <;> rfl

/-- Otherwise the node is left without key. -/
theorem setValueStr_lost {s : Bytes} {k : KnvKey} (hv : n.isValid = true) (ht : n.type = .string)
    (htest : n.testsKey = true) (hk : n.hasKey = true) (hs : firstKey s = some k) :
    (n.setValueStr s).ret = .ok 0 ∧ (n.setValueStr s).node.key = {} := by
  unfold setValueStr
  rw [if_neg (by simp [hv]), if_neg (not_not_intro ht)]
  have hhas : ({ n with key := {}, val := { str := s } } : KnvNode).hasKey = false := by simp [hasKey]
  simp only [keyAfterTest_lost htest hk hs]
  simp only [hhas, Bool.false_eq_true, if_false]
  refine ⟨trivial, ?_⟩
  split
  · exact (touched_updateEvalSz ..).key
  · rfl

/-! ### The parent -/

/-- A node in a slot is found there after its parent has heard of it. -/
theorem slot_notify (n : KnvNode) (s : Slot) (c c' : KnvNode) (msgs : List Ev) (hc : hanging.get n s = some c) :
    hanging.get (hanging.notify (hanging.set n s c') s msgs).1 s = some c' := by
  rw [notify_setSlot hc]
  have ht := touched_handleAll c'.self msgs (n.setSlot s c')
  have hslot : (n.setSlot s c').slot s = some c' := slot_setSlot hc
  show ((n.setSlot s c').handleAll c'.self msgs).1.slot s = some c'
  cases s with
  | ofMeta i => exact (congrArg (·[i]?) ht.metalist).trans hslot
  | ofChild i => exact (congrArg (·[i]?) ht.childlist).trans hslot

variable {p c c' : KnvNode} {i : ℕ}

/-- A property of all nodes holds below every path. -/
theorem all_nodeAt {P : KnvNode → Prop} : ∀ {path : List Slot} {n t : KnvNode}, All P n → nodeAt hanging path n = some t →
    All P t := by
  intro path
  induction path with
  | nil =>
    intro n t h ht
    cases ht
    exact h
  | cons s path ih =>
    intro n t h ht
    obtain ⟨c, hc, ht⟩ := Option.bind_eq_some_iff.mp ht
    exact ih (All.slot h hc) ht

/-- **A child that was taken out of the index and put back is found**, before all others with its tag and key. -/
theorem findChild_of_moved (tag : UInt32) (k : Bytes) (offset : ℤ) (hs : Shape p) (hv : p.isValid = true)
    (hc : p.childlist[i]? = some c) (hself : c'.self = c.self) (pl : Place) :
    ((p.setSlot (.ofChild i) c').handleAll c'.self
        [.htRemove tag k, .htPut c'.tag c'.key.bytes, updateParent offset]).1.findChild c'.tag c'.key.bytes pl =
      (((p.setSlot (.ofChild i) c').handleAll c'.self [.htRemove tag k, .htPut c'.tag c'.key.bytes, updateParent offset]).1,
        some c'.self) := by
  set q := p.setSlot (.ofChild i) c' with hq
  set msgs : List Ev := [.htRemove tag k, .htPut c'.tag c'.key.bytes, updateParent offset] with hmsgs
  have ht := touched_handleAll c'.self msgs q
  have hmem : c' ∈ q.childlist := by
    rw [hq, setSlot_ofChild]
    exact List.mem_set (List.getElem?_eq_some_iff.mp hc).1 ..
  have hexp : p.expanded = true := by
    by_contra hf
    rw [(hs.folded (by simpa using hf)).2] at hc
    cases hc
  have hnd : q.childAddrs.Nodup := by
    rw [hq, childAddrs_setSlot hc hself]
    exact hs.nodup_children
  have hlook : (q.handleAll c'.self msgs).1.look c'.self = (c'.tag, c'.key.bytes) := by
    rw [ht.look]
    exact look_child hnd hmem
  have hpos : ¬(q.handleAll c'.self msgs).1.childNum ≤ 0 := by
    have hlen := List.length_pos_of_mem hmem
    simp only [childNum, ht.expanded, ht.childlist, show q.expanded = true from hexp, if_true]
    omega
  have hval : (q.handleAll c'.self msgs).1.isValid = true := by
    rw [isValid, ht.tag]
    exact hv
  unfold findChild
  rw [if_neg (by simp [hval]), innerExpand_of_expanded (ht.expanded.trans hexp)]
  simp only [if_neg hpos]
  have hht := (ht_handleAll c'.self msgs q).1
  obtain ⟨l, hl⟩ := KnvHt.chain_put (q.ht.remove c'.self tag k)
    (fun b => if b = c'.self then (c'.tag, c'.key.bytes) else q.look b) c'.self
  have hput : (q.handleAll c'.self msgs).1.ht = (q.ht.remove c'.self tag k).put
      (fun b => if b = c'.self then (c'.tag, c'.key.bytes) else q.look b) c'.self := hht
  simp only [if_true] at hl
  rw [KnvHt.get, hput, hl, List.find?_cons_of_pos (by exact decide_eq_true hlook)]

/-- What `SetValue` does to a node and its parent, wherever they are in a tree. -/
theorem keepsIdentity_iff {s : Bytes} (hp : All Live p) (hs : Shaped p) (hc : p.childlist[i]? = some n)
    (hkey : n.key.bytes ≠ []) :
    KeepsIdentity s p n ((p.setSlot (.ofChild i) (n.setValueStr s).node).handleAll (n.setValueStr s).node.self
      (n.setValueStr s).msgs).1 (n.setValueStr s).node (n.setValueStr s).ret ↔ ¬MisreadsKey n s := by
  have hmem := List.mem_of_getElem? hc
  have hlive := (hp.children n hmem).here
  have hshape := (hs.children n hmem).here
  have hk : n.hasKey = true := by
    have hno : n.noKey = false := by
      by_contra hno
      exact hkey (hlive.keyless (by simpa using hno))
    simp [hasKey, hno, hkey]
  have hv : p.isValid = true := by
    by_contra hinv
    rw [hp.here.valid (by simpa using hinv)] at hmem
    exact absurd hmem List.not_mem_nil
  constructor
  · rintro h ⟨hnv, ht, hexp, htest, k, hfirst, hcase⟩
    obtain ⟨hret, hlost⟩ := setValueStr_lost hnv ht (testsKey_iff.mpr ⟨hexp, htest⟩) hk hfirst
    by_cases hsame : k = n.key
    · -- the node keeps its key, but has none any more
      have hkept := (h.same 0 hret (hsame ▸ hfirst)).1
      rw [hlost] at hkept
      exact hkey (hkept ▸ rfl)
    · -- another key is refused, but has been taken
      obtain ⟨⟨e, he⟩, -⟩ := h.other hexp (hcase.resolve_left hsame) ⟨k, hfirst, hsame⟩
      rw [hret] at he
      cases he
  · intro hno
    by_cases hok : n.isValid = true ∧ n.type = .string
    · obtain ⟨hnv, ht⟩ := hok
      refine ⟨fun r _ hfirst => ?_, fun hexp hcs hkey' => ?_⟩
      · have htest : n.testsKey = false := by
          by_contra htest
          obtain ⟨hexp, hcase⟩ := testsKey_iff.mp (by simpa using htest)
          exact hno ⟨hnv, ht, hexp, hcase, n.key, hfirst, .inl rfl⟩
        obtain ⟨offset, hmsgs, -, hself, hkept, htag, hval⟩ := setValueStr_keyed hnv ht hshape.evaluated htest hk hfirst
        refine ⟨hkept, hval, fun pl => ?_⟩
        have hfind := findChild_of_moved n.tag n.key.bytes offset hs.here hv hc hself pl
        rw [htag, hkept] at hfind
        rw [hmsgs]
        exact hfind
      · obtain ⟨k, hfirst, -⟩ := hkey'
        exact absurd ⟨hnv, ht, hexp, .inl hcs, k, hfirst, .inr hcs⟩ hno
    · -- a node that is not a valid string is left alone
      have hfail : ∃ e, n.setValueStr s = ⟨n, [], .error e⟩ := by
        unfold setValueStr
        by_cases hnv : n.isValid = true
        · rw [if_neg (by simp [hnv]), if_pos fun ht => hok ⟨hnv, ht⟩]
          exact ⟨_, rfl⟩
        · rw [if_pos (by simpa using hnv)]
          exact ⟨_, rfl⟩
      obtain ⟨e, he⟩ := hfail
      rw [he]
      refine ⟨fun r hret => (by cases hret), fun _ _ _ => ⟨⟨e, rfl⟩, rfl, ?_⟩⟩
      obtain ⟨hlt, rfl⟩ := List.getElem?_eq_some_iff.mp hc
      obtain ⟨d, ms, cs⟩ := p
      simp only [handleAll, setSlot_ofChild, List.set_getElem_self]

/-- **When `SetValue` keeps the identity of a node.** In every state of every run, for every node that has a key and a
parent, and for every string: a value that begins with the node's key is taken for a value of the same node, and one
that begins with another key is refused if the node has children, exactly when the test for an unchanged key does not
read a key. -/
theorem keepsIdentity_of_run {root : KnvNode} (h : TreeRun (fun _ _ _ _ => True) root) {path : List Slot} {p n : KnvNode}
    {i : ℕ} (hp : nodeAt hanging path root = some p) (hn : p.childlist[i]? = some n) (hkey : n.key.bytes ≠ []) (s : Bytes)
    (ownBuf : Bool) {out : Out} (hrun : (Op.setValueStr s ownBuf).runAt (path ++ [.ofChild i]) root = some out) :
    ∃ p' n', nodeAt hanging path out.node = some p' ∧ p'.childlist[i]? = some n' ∧
      (KeepsIdentity s p n p' n' out.ret ↔ ¬MisreadsKey n s) := by
  obtain ⟨g, o, -, ho, hp', hret⟩ := editAt_append slot_notify hrun hp
  obtain ⟨c, o', hc, ho', rfl⟩ := editAt_cons ho
  have hcn : c = n := Option.some.inj (hc.symm.trans hn)
  subst hcn
  cases ho'
  have hslot := slot_notify p (.ofChild i) c (c.setValueStr s).node (c.setValueStr s).msgs hc
  refine ⟨_, (c.setValueStr s).node, hp', hslot, ?_⟩
  have hkeep := keepsIdentity_iff (s := s) (all_nodeAt (live_of_run h) hp) (all_nodeAt (shaped_of_run h) hp) hn hkey
  rw [← notify_setSlot (show p.slot (.ofChild i) = some c from hn)] at hkeep
  rw [hret]
  exact hkeep

/-- A child with the key 5 that has not been looked into gets another value with its key. -/
theorem keepsIdentity_of_run_unexpanded : ∃ p n p' n' : KnvNode, n.key = ⟨.varint, Varint.leBytes 8 5⟩ ∧
    KeepsIdentity [8, 5, 0x60, 2] p n p' n' (.ok 0) := by
  obtain ⟨m, hm⟩ : ∃ n, newFromBytes [0x62, 6, 0x5a, 4, 8, 5, 0x60, 1] = .ok n := ⟨_, rfl⟩
  have hlookup := (TreeRun.newFromBytes hm : TreeRun (fun _ _ _ _ => True) m).atRoot .lookup trivial trivial
  cases hm
  obtain ⟨p', n', -, -, hkeep⟩ :=
    @keepsIdentity_of_run _ hlookup [] _ _ 0 rfl rfl (by decide) [8, 5, 0x60, 2] true _ rfl
  exact ⟨_, _, p', n', rfl, hkeep.mpr fun hbad => nomatch hbad.2.2.1⟩

/-- The child has been looked into, and gets another value with its key. -/
theorem not_keepsIdentity_of_run : ¬∀ root, TreeRun (fun _ _ _ _ => True) root → ∀ path p n i,
    nodeAt hanging path root = some p → p.childlist[i]? = some n → n.key.bytes ≠ [] → ∀ s ownBuf out,
    (Op.setValueStr s ownBuf).runAt (path ++ [.ofChild i]) root = some out → ∀ p' n',
      nodeAt hanging path out.node = some p' →
    p'.childlist[i]? = some n' → KeepsIdentity s p n p' n' out.ret := by
  intro h
  obtain ⟨m, hm⟩ : ∃ n, newFromBytes [0x62, 6, 0x5a, 4, 8, 5, 0x60, 1] = .ok n := ⟨_, rfl⟩
  have hlookup := (TreeRun.newFromBytes hm : TreeRun (fun _ _ _ _ => True) m).atRoot .lookup trivial trivial
  obtain ⟨out, hout⟩ : ∃ out, Op.lookup.runAt [.ofChild 0] (Op.lookup.run {} m).node = some out := by
    cases hm
    exact ⟨_, rfl⟩
  have hchild : TreeRun (fun _ _ _ _ => True) out.node :=
    @TreeRun.step _ _ .lookup [.ofChild 0] out hlookup (fun _ _ _ he => nomatch he) (fun _ _ _ _ => trivial) hout
  cases hm
  cases hout
  have hkeep := h _ hchild [] _ _ 0 rfl rfl (by decide) [8, 5, 0x60, 2] true _ rfl _ _ rfl rfl
  have hkey := (hkeep.same 0 rfl (by decide)).1
  revert hkey
  decide

end KnvNode

end KnvProto
