import KnvProto.Tree.IntFields
import KnvProto.Tree.Queried

/-!
# Trees that are served

A data node is parsed from a message, then read, updated and deleted from by requests, in
any order, and sent out again. No function recomputes a size on the way: each adds what it
changes to its node, and tells the parents the difference. After any number of requests
`Serialize` still succeeds wherever the plain encoding fits, and never fails with
`Bug: eval size incorrect` (`serialize_of_serveRun`).

## The model

What a walk leaves weighs what it says (`Weighs`): the sizes are exact again, and the
messages tell the parent by how much the node has grown. Updates and deletions are sent to
nodes that are reached through children, and the keys of the nodes stay.
-/

namespace KnvProto

open PathEdit

namespace KnvNode

variable {T : Terms} {pl q : Place} {n n' x s c c' m : KnvNode} {msgs : List Ev} {t : UInt32} {d : ℤ}

/-! ### What a step leaves -/

/-- `metas[]` leads to metas of its tags. -/
def MetasLead (n : KnvNode) : Prop :=
  n.metalist ≠ [] → ∀ t a, n.metas t = some a → ∃ m ∈ n.metalist, m.self = a ∧ m.tag = t

/-- The sizes are exact, and the messages tell by how much the node has grown. -/
structure Weighs (n : KnvNode) (o : Out) : Prop where
  measured : All Measured o.node
  told : offsets o.msgs = o.node.evalSz - n.evalSz

theorem weighs_same (h : All Measured n) (ret : Except KnvErr ℕ) : Weighs n ⟨n, [], ret⟩ := ⟨h, (Int.sub_self _).symm⟩

theorem Weighs.ret {o : Out} (h : Weighs n o) (ret : Except KnvErr ℕ) : Weighs n ⟨o.node, o.msgs, ret⟩ :=
  ⟨h.measured, h.told⟩

theorem offsets_finish (hev : 0 ≤ n.evalSz) (d : ℤ) : offsets (n.finish d).msgs = (n.finish d).node.evalSz - n.evalSz := by
  unfold finish KnvNode.updateEvalSz
  rw [if_pos hev]
  by_cases hd : d = 0
  · simp [hd, setValueDirty]
  · simp [hd, setValueDirty]

/-- The end of a function makes the sizes exact again. -/
theorem weighs_finish (h : AddsUp d x) (ht : x.type = .string) (hexp : x.expanded = true) (hev : 0 ≤ x.evalSz)
    (hsz : x.evalSz = n.evalSz) (hbelow : ∀ y ∈ x.metalist ++ x.childlist, All Measured y)
    (hheld : Held (x.finish d).node) : Weighs n (x.finish d) := by
  have htouch := touched_finish x d
  have hms : (x.finish d).node.metalist ++ (x.finish d).node.childlist = x.metalist ++ x.childlist := by
    rw [htouch.metalist, htouch.childlist]
  refine ⟨.mk ?_ (fun y hy => hbelow y ?_) fun y hy => hbelow y ?_, hsz ▸ offsets_finish hev d⟩
  · exact (h.finish ht hev).measured hheld (htouch.type.trans ht) (htouch.expanded.trans hexp) (.inr (.inr rfl))
      fun y hy => (hbelow y (hms ▸ hy)).here
  · exact List.mem_append_left _ (htouch.metalist ▸ hy)
  · exact List.mem_append_right _ (htouch.childlist ▸ hy)

theorem Measured.below (h : All Measured n) : ∀ y ∈ n.metalist ++ n.childlist, All Measured y := fun y hy =>
  (List.mem_append.mp hy).elim (h.metas y) (h.children y)

/-- The sizes of a writable node are sums. -/
theorem Writable.addsUp (hw : Writable n) (hn : Sound pl n) (hm : All Measured n) : AddsUp 0 n :=
  hm.here.addsUp hn.cached.here.toHeld hw.type hw.expanded hw.value fun y hy => (Measured.below hm y hy).here

/-- A leaf whose sizes are those that `Serialize` needs. -/
theorem measured_leaf (h : Accurate n) (hms : n.metalist = []) (hcs : n.childlist = []) : All Measured n := by
  have hfold := isFolded_of_nil hms hcs
  obtain ⟨hsz, hval⟩ := h.value (by rw [hfold, Bool.true_or])
  refine .of_nil ⟨?_, fun ht => ?_⟩ hms hcs
  · rw [hsz, pbEvalFieldLength_eq, encode_of_folded hfold]
  · rw [hval ht, plainVal_of_folded hfold]

/-! ### Metas -/

theorem nil_overwrite (hs : Shape m) (type : PbType) (data : Option PbVal) (k : Bool) :
    (m.overwrite t type data k).metalist = [] ∧ (m.overwrite t type data k).childlist = [] := by
  rw [overwrite_eq]
  split
  · exact ⟨rfl, rfl⟩
  · next hexp => exact hs.folded (by simpa using hexp)

/-- A meta other than the key is replaced. -/
theorem sum_setMetaNode {m' : KnvNode} (hs : Shape n) (hm : m ∈ n.metalist) (hself : m'.self = m.self)
    (htag : m'.tag = m.tag) (hne : m.tag ≠ 1) (b : Bool) :
    ((metasAfterKey b (n.setMetaNode m').metalist).map (·.evalSz)).sum =
      ((metasAfterKey b n.metalist).map (·.evalSz)).sum + (m'.evalSz - m.evalSz) := by
  have hnd := nodup_metas hs
  have htags : ∀ x ∈ n.metalist, (if x.self = m'.self then m' else x).tag = x.tag := by
    intro x hx
    split
    · next hxs => rw [List.inj_on_of_nodup_map hnd hx hm (hxs.trans hself), htag]
    · rfl
  rw [setMetaNode, metasAfterKey_map b htags]
  exact sum_replace (fun x : KnvNode => x.evalSz) (fun x : KnvNode => x.self) hself (nodup_metasAfterKey b hnd)
    (mem_metasAfterKey hm hne)

/-- The end of `SetMeta` where the meta is there. -/
theorem weighs_overwrite (hw : Writable n) (hn : Sound pl n) (hm : All Measured n) (hmem : m ∈ n.metalist)
    (htag : m.tag = t) (ht : t ≠ 1) (type : PbType) (data : Option PbVal) (k : Bool)
    (hheld : Held ((n.setMetaNode (m.overwrite t type data k)).finish
      (metaSize t type data - m.evaluateSize.evalSz)).node) :
    Weighs n ((n.setMetaNode (m.overwrite t type data k)).finish (metaSize t type data - m.evaluateSize.evalSz)) := by
  obtain ⟨q, hq⟩ := hn.below (List.mem_append_left _ hmem)
  have hself : (m.overwrite t type data k).self = m.self := by
    rw [overwrite_eq]
    split <;> rfl
  have htag' : (m.overwrite t type data k).tag = m.tag := by
    rw [overwrite_eq]
    split <;> rfl
  have hsz : (m.overwrite t type data k).evalSz = metaSize t type data := by
    rw [overwrite_eq]
  have hnew : All Measured (m.overwrite t type data k) := by
    obtain ⟨hms, hcs⟩ := nil_overwrite (t := t) hq.shaped.here type data k
    exact measured_leaf (accurate_overwrite htag hq.seated.valid hq.shaped.here type data k).here hms hcs
  have hsum := sum_setMetaNode (n := n) hn.shaped.here hmem hself htag' (htag ▸ ht) n.hasKey
  have heval := evaluateSize_of_nonneg hq.shaped.here.evaluated
  refine weighs_finish (x := n.setMetaNode (m.overwrite t type data k)) ?_ hw.type hw.expanded
    hn.shaped.here.evaluated rfl (fun y hy => ?_) hheld
  · rw [← Int.zero_add (_ - _)]
    refine (hw.addsUp hn hm).relist rfl rfl rfl rfl rfl ?_
    rw [hsum, hsz, heval]
    show _ + (n.childlist.map (·.evalSz)).sum = _
    omega
  · rcases List.mem_append.mp hy with hy | hy
    · obtain ⟨z, hz, rfl⟩ := List.mem_map.mp hy
      split
      · exact hnew
      · exact hm.metas z hz
    · exact hm.children y hy

/-- The end of `SetMeta` where the meta is added. -/
theorem weighs_addMetaNode (hw : Writable n) (hn : Sound pl n) (hm : All Measured n) (h0 : t ≠ 0) (ht : t ≠ 1)
    (type : PbType) (data : Option PbVal)
    (hheld : Held ((n.addMetaNode t type data).finish (metaSize t type data)).node) :
    Weighs n ((n.addMetaNode t type data).finish (metaSize t type data)) := by
  have hnew := accurate_initNode h0 type data true n.slots
  have hlist : (n.addMetaNode t type data).metalist =
      n.metalist ++ [(initNode t type data true 0 true).at' n.slots] := if_neg ht
  refine weighs_finish (x := n.addMetaNode t type data) ?_ hw.type hw.expanded hn.shaped.here.evaluated rfl
    (fun y hy => ?_) hheld
  · rw [← Int.zero_add (metaSize t type data)]
    refine (hw.addsUp hn hm).relist rfl rfl rfl rfl rfl ?_
    rw [hlist, metasAfterKey_concat n.hasKey n.metalist ht, List.map_append, List.sum_append]
    show _ + (metaSize t type data + 0) + (n.childlist.map (·.evalSz)).sum = _
    omega
  · rcases List.mem_append.mp hy with hy | hy
    · rw [hlist] at hy
      rcases List.mem_append.mp hy with hy | hy
      · exact hm.metas y hy
      · rw [List.mem_singleton.mp hy]
        exact measured_leaf hnew.here rfl rfl
    · exact hm.children y hy

/-- **`SetMeta` tells by how much the node has grown.** -/
theorem weighs_setMeta (hw : Writable n) (hn : Sound pl n) (hm : All Measured n) (hlead : MetasLead n) (ht : 1 < t)
    (type : PbType) (data : Option PbVal) (hheld : Held (n.setMetaInner t type data true pl).node) :
    Weighs n (n.setMetaInner t type data true pl) := by
  have h1 : t ≠ 1 := fun h => absurd (h ▸ ht) (by decide)
  have h0 : t ≠ 0 := fun h => absurd (h ▸ ht) (by decide)
  revert hheld
  refine setMetaInner_rule (P := fun o => Held o.node → Weighs n o) (fun _ _ _ => weighs_same hm _)
    fun _ _ _ n' hn' => ?_
  rw [innerExpand_of_expanded hw.expanded] at hn'
  subst hn'
  refine ⟨fun m hmeta hheld => ?_, fun _ hheld => weighs_addMetaNode hw hn hm h0 h1 type data hheld⟩
  obtain ⟨hne, hlead', hmem⟩ := metaAt_eq_some hmeta
  obtain ⟨y, hy, hself, htag⟩ := hlead hne t _ hlead'
  have hym : y = m := List.inj_on_of_nodup_map (nodup_metas hn.shaped.here) hy hmem hself
  exact weighs_overwrite hw hn hm hmem (hym ▸ htag) h1 type data _ hheld

/-! ### Values -/

theorem weighs_setValueStr (hn : Sound pl n) (hm : All Measured n) (v : Bytes) : Weighs n (n.setValueStr v) := by
  refine setValueStr_rule (P := Weighs n) (fun _ => weighs_same hm _) fun _ ht k evs hevs n' hn' u hu => ?_
  have hev := hn.shaped.here.evaluated
  rw [if_pos hev] at hu
  have hquiet : offsets evs = 0 := by
    rcases hevs with ⟨-, -, -, rfl⟩ | ⟨-, -, rfl⟩ <;> rfl
  have htouch := touched_updateEvalSz n' (v.length - n.evalValSz)
  have hsame : u.1.metalist = [] ∧ u.1.childlist = [] ∧ u.1.tag = n.tag ∧ u.1.type = n.type := by
    rw [hu, htouch.metalist, htouch.childlist, htouch.tag, htouch.type, hn']
    exact ⟨rfl, rfl, rfl, rfl⟩
  have hval : u.1.evalValSz = v.length ∧ u.1.val.str = v ∧ u.2 = u.1.evalSz - n.evalSz ∧
      u.1.evalSz = pbEvalLength n.tag .string 0 u.1.evalValSz.toNat := by
    have hsz := hn.cached.here.size ht
    rw [hu, hn']
    unfold KnvNode.updateEvalSz
    by_cases hd : (v.length : ℤ) - n.evalValSz = 0
    · rw [if_pos hd]
      refine ⟨?_, rfl, (Int.sub_self _).symm, hsz⟩
      show n.evalValSz = _
      omega
    · rw [if_neg hd]
      refine ⟨?_, rfl, rfl, ?_⟩
      · show n.evalValSz + _ = _
        omega
      · simp only [ht]
        exact congrArg Nat.cast (pbEvalLength_string ..)
  refine ⟨measured_leaf (n := u.1) ⟨?_, fun _ => ⟨?_, fun _ => ?_⟩, fun hf => ?_⟩ hsame.1 hsame.2.1, ?_⟩
  · rw [isValid, hsame.2.2.1]
    exact hn.seated.valid
  · rw [hval.2.2.2, hval.1, hsame.2.2.1, hsame.2.2.2, ht, pbEvalFieldLength, hval.2.1, Int.toNat_natCast]
    exact congrArg Nat.cast (pbEvalLength_string ..)
  · rw [hval.1, hval.2.1]
  · rw [isFolded_of_nil hsame.1 hsame.2.1] at hf
    cases hf
  · rw [offsets_append, hquiet, offsets_cons, offset_updateParent, offsets_nil, hval.2.2.1, Int.zero_add, Int.add_zero]

theorem weighs_setValueInt (hm : All Measured n) (v : UInt64) : Weighs n (n.setValueInt v) := by
  refine setValueInt_rule (P := Weighs n) (fun _ => weighs_same hm _) fun _ ht => ⟨.mk ⟨?_, ?_⟩ hm.metas hm.children, ?_⟩
  · rw [plain, length_encode_fieldOf, pbEvalFieldLength]
    exact congrArg Nat.cast (pbEvalLength_of_ne ht ..)
  · exact fun h => absurd h ht
  · rw [offsets_cons, offset_updateParent, offsets_nil, Int.add_zero]

/-! ### Children -/

/-- A copy has the size of what it was copied from. -/
theorem measured_initNode {v : PbVal} (hm : Measured n) (hstr : n.type = .string → v.str = n.plainVal)
    (hnum : n.type ≠ .string → v.i64 = n.val.i64) :
    All Measured (initNode n.tag n.type (some v) true n.evalSz.toNat false) := by
  obtain ⟨y, hy⟩ : ∃ y, y = initNode n.tag n.type (some v) true n.evalSz.toNat false := ⟨_, rfl⟩
  have hpos : 0 < n.plain.length := length_encode_pos' _
  have hnil : y.metalist = [] ∧ y.childlist = [] := hy ▸ ⟨rfl, rfl⟩
  have hval : y.plainVal = (v.pick n.type).str := by
    rw [plainVal_of_folded (isFolded_of_nil hnil.1 hnil.2), hy]
    rfl
  have hsz : y.evalSz = n.plain.length := by
    rw [hy, ← hm.size]
    show ((if 0 < n.evalSz.toNat then n.evalSz.toNat else _ : ℕ) : ℤ) = _
    rw [hm.size, Int.toNat_natCast, if_pos hpos]
  rw [← hy]
  refine .of_nil ⟨?_, fun ht => ?_⟩ hnil.1 hnil.2
  · rw [hsz, plain, length_encode_fieldOf, plain, length_encode_fieldOf, hval, hy]
    show (pbEvalLength n.tag n.type n.val.i64 n.plainVal.length : ℤ) =
      pbEvalLength n.tag n.type (v.pick n.type).i64 (v.pick n.type).str.length
    by_cases ht : n.type = .string
    · rw [ht, PbVal.pick, if_pos rfl, hstr ht]
      exact congrArg Nat.cast (pbEvalLength_string ..)
    · rw [PbVal.pick, if_neg ht, hnum ht]
      exact congrArg Nat.cast (pbEvalLength_of_ne ht ..)
  · have ht' : n.type = .string := by
      rw [hy] at ht
      exact ht
    rw [hval, hy]
    simp only [initNode, ht', if_true]

theorem measured_toLink (hs : Sendable q s) (hm : All Measured s) (h : s.toLink false = .ok c) : All Measured c := by
  have hcached := hs.sound.cached.here
  unfold toLink innerDuplicate at h
  rw [evaluateSize_of_nonneg hs.sound.shaped.here.evaluated, if_neg Bool.false_ne_true] at h
  split at h
  · next hfresh =>
    simp only at h
    split at h
    · cases h
    next out hout =>
    split at h
    · cases h
    cases h
    have hplain := (plain_serialize (hs.sound.cached.imp fun _ h => h.honest) hs.sound.shaped _ out).2 hout
    exact measured_initNode hm.here (fun _ => hplain) fun hne => absurd hfresh.1 hne
  next hold =>
  cases h
  refine measured_initNode hm.here (fun ht => ?_) fun _ => rfl
  cases hf : s.isFolded with
  | true => exact (plainVal_of_folded hf).symm
  | false =>
    refine hcached.clean hf ?_
    rcases hs.carried.here with h | h | h
    · rw [hf] at h
      cases h
    · exact h
    · exact absurd ⟨ht, h, expanded_of_not_folded hf⟩ hold

/-- **`InsertChild` tells by how much the node has grown.** -/
theorem weighs_insert (hw : Writable n) (hn : Sound pl n) (hm : All Measured n) (hs : Sendable q s)
    (hms : All Measured s) (hheld : Held (innerInsertChild s false true true n).node) :
    Weighs n (innerInsertChild s false true true n) := by
  revert hheld
  refine innerInsertChild_rule (P := fun o => Held o.node → Weighs n o) (fun _ _ => weighs_same hm _)
    fun c hc c' hc' hheld => ?_
  have hcopy := measured_toLink hs hms hc
  rw [evaluateSize_of_nonneg (shaped_toLink hs.sound.shaped hc).here.evaluated, ite_self] at hc'
  subst hc'
  have hlist : (n.linkChild c' true).childlist = n.childlist ++ [c'.at' n.slots] := rfl
  refine weighs_finish (x := n.linkChild c' true) ?_ hw.type hw.expanded hn.shaped.here.evaluated rfl
    (fun y hy => ?_) hheld
  · rw [← Int.zero_add c'.evalSz]
    refine (hw.addsUp hn hm).relist rfl rfl rfl rfl rfl ?_
    rw [hlist, List.map_append, List.sum_append]
    show ((metasAfterKey n.hasKey n.metalist).map (·.evalSz)).sum + (_ + (c'.evalSz + 0)) = _
    omega
  · rw [hlist] at hy
    rcases List.mem_append.mp hy with hy | hy
    · exact hm.metas y hy
    rcases List.mem_append.mp hy with hy | hy
    · exact hm.children y hy
    · rw [List.mem_singleton.mp hy]
      exact All.at' (fun z a hz => ⟨(plain_at' z a).symm ▸ hz.size, fun ht => (plainVal_at' z a).symm ▸ hz.value ht⟩) hcopy

/-- The end of a function that has removed children. -/
theorem weighs_fewer (hn : Sound pl n) (hm : All Measured n) (hmsg : Message n) (hexp : n.expanded = true)
    (hne : n.childlist ≠ []) {ht : KnvHt} {l : List KnvNode} (hl : ∀ y ∈ l, y ∈ n.childlist)
    (hsum : (l.map (·.evalSz)).sum = (n.childlist.map (·.evalSz)).sum + d)
    (hheld : Held (finish { n with ht := ht, childlist := l } d).node) :
    Weighs n (finish { n with ht := ht, childlist := l } d) := by
  have hw : Writable n := ⟨hmsg hexp (.inr hne), hexp, .inr (.inl hne)⟩
  refine weighs_finish (x := { n with ht := ht, childlist := l }) ?_ hw.type hexp hn.shaped.here.evaluated rfl
    (fun y hy => (List.mem_append.mp hy).elim (hm.metas y) fun hy => hm.children y (hl y hy)) hheld
  rw [← Int.zero_add d]
  refine (hw.addsUp hn hm).relist rfl rfl rfl rfl rfl ?_
  show ((metasAfterKey n.hasKey n.metalist).map (·.evalSz)).sum + (l.map (·.evalSz)).sum = _
  omega

theorem weighs_removeChildByPos (hn : Sound pl n) (hm : All Measured n) (hmsg : Message n) (hexp : n.expanded = true)
    (a : ℕ) (pos : Option ℕ) (hheld : Held (n.removeChildByPos a pos).node) : Weighs n (n.removeChildByPos a pos) := by
  revert hheld
  refine removeChildByPos_rule (P := fun o => Held o.node → Weighs n o) (fun _ => weighs_same hm _)
    fun c hc o ho hheld => ?_
  subst ho
  have hmem := List.mem_of_find?_eq_some hc
  have heval := evaluateSize_of_nonneg (hn.shaped.children c hmem).here.evaluated
  refine (weighs_fewer hn hm hmsg hexp (List.ne_nil_of_mem hmem) (fun y hy => List.mem_of_mem_eraseP hy) ?_ hheld).ret _
  rw [if_pos hn.shaped.here.evaluated, heval, sum_eraseP (fun x : KnvNode => x.evalSz) hc, Int.sub_eq_add_neg]

theorem weighs_removeChildrenByTag (hn : Sound pl n) (hm : All Measured n) (hmsg : All Message n) (t : UInt32)
    (hheld : Held (n.removeChildrenByTag t pl).node) : Weighs n (n.removeChildrenByTag t pl) := by
  have hsound := hn.opened false
  have hopen := measured_innerExpand hn hm false
  have hmsg' := Message.innerExpand hmsg pl.parentKeyed false
  have hexp := innerExpand_expanded pl.parentKeyed false n
  have hsz := (expandSame pl.parentKeyed false n).evalSz
  revert hheld
  refine removeChildrenByTag_rule (P := fun o => Held o.node → Weighs n o) (fun _ _ => weighs_same hm _)
    fun _ n' hn' => ?_
  rw [← hn'] at hsound hopen hmsg' hexp hsz
  refine ⟨fun _ => ⟨hopen, by rw [hsz]; exact (Int.sub_self _).symm⟩, fun matched hmatched hne o ho hheld => ?_⟩
  subst ho
  have hfilter : matched = n'.childlist.filter fun c => c.tag = t := hmatched
  have hchild : n'.childlist ≠ [] := by
    intro hnil
    rw [hnil] at hfilter
    exact hne hfilter
  have heval : matched.map (·.evaluateSize.evalSz) = matched.map (·.evalSz) :=
    List.map_congr_left fun y hy => by
      rw [evaluateSize_of_nonneg (hsound.shaped.children y (List.mem_filter.mp (hfilter ▸ hy)).1).here.evaluated]
  have hweigh := weighs_fewer hsound hopen hmsg'.here hexp hchild (fun y hy => (List.mem_filter.mp hy).1) ?_ hheld
  · exact ⟨hweigh.measured, by rw [← hsz]; exact hweigh.told⟩
  · rw [if_pos hsound.shaped.here.evaluated, heval, hfilter, ← Int.sub_eq_add_neg]
    exact sum_filter_not (fun y : KnvNode => y.evalSz) (fun y => y.tag = t) n'.childlist

/-! ### Steps -/

theorem sum_handle {a : ℕ} {p : KnvNode} {ev : Ev} (h : AddsUp (ev.offset + d) p) (ht : p.type = .string)
    (hev : 0 ≤ p.evalSz) :
    AddsUp d (p.handle a ev).1 ∧ offsets (p.handle a ev).2 = (p.handle a ev).1.evalSz - p.evalSz := by
  cases ev with
  | htRemove tag key =>
    rw [offset_htRemove, Int.zero_add] at h
    exact ⟨⟨h.val, h.sz⟩, (Int.sub_self _).symm⟩
  | htPut tag key =>
    rw [offset_htPut, Int.zero_add] at h
    exact ⟨⟨h.val, h.sz⟩, (Int.sub_self _).symm⟩
  | update o e b =>
    -- first the size, then the mark
    have heval : AddsUp d (p.turnEval o e).1 ∧
        (if (p.turnEval o e).2.2 then (p.turnEval o e).2.1 else 0) = (p.turnEval o e).1.evalSz - p.evalSz := by
      unfold turnEval
      cases e with
      | false =>
        rw [Ev.offset, if_neg Bool.false_ne_true, Int.zero_add] at h
        exact ⟨h, (Int.sub_self _).symm⟩
      | true =>
        rw [Ev.offset, if_pos rfl] at h
        by_cases ho : o = 0
        · subst ho
          rw [Int.zero_add] at h
          simpa using h
        · rw [Int.add_comm] at h
          refine ⟨by simpa [ho, Int.not_lt.mpr hev] using h.updateEvalSz ht, ?_⟩
          simp [ho, Int.not_lt.mpr hev, KnvNode.updateEvalSz]
    have hmark : AddsUp d ((p.turnEval o e).1.turnDirty b).1 ∧
        ((p.turnEval o e).1.turnDirty b).1.evalSz = (p.turnEval o e).1.evalSz := by
      unfold turnDirty
      split
      · split
        · exact ⟨heval.1, rfl⟩
        · exact ⟨heval.1.congr (touched_setValueDirty _) rfl rfl, rfl⟩
      · exact ⟨heval.1, rfl⟩
    rw [handle_update]
    split
    · refine ⟨hmark.1, ?_⟩
      rw [offsets_cons, offsets_nil, Ev.offset, Int.add_zero, heval.2, hmark.2]
    · next hquiet =>
      simp only [Bool.or_eq_true, not_or, Bool.not_eq_true] at hquiet
      rw [Ev.offset, hquiet.2, if_neg Bool.false_ne_true, Int.zero_add] at h
      exact ⟨h, (Int.sub_self _).symm⟩

/-- A parent that is short of what messages tell is short of nothing when it has heard them. -/
theorem sum_handleAll {a : ℕ} {evs : List Ev} : ∀ {p : KnvNode}, AddsUp (offsets evs) p → p.type = .string →
    0 ≤ p.evalSz →
    AddsUp 0 (p.handleAll a evs).1 ∧ offsets (p.handleAll a evs).2 = (p.handleAll a evs).1.evalSz - p.evalSz := by
  induction evs with
  | nil => exact fun h _ _ => ⟨h, (Int.sub_self _).symm⟩
  | cons ev evs ih =>
    intro p h ht hev
    have htouch := touched_handle a p ev
    obtain ⟨hone, htold⟩ := sum_handle (a := a) (d := offsets evs) h ht hev
    obtain ⟨hall, htold'⟩ := ih hone (htouch.type.trans ht) (htouch.evaluated hev)
    refine ⟨hall, ?_⟩
    rw [handleAll_cons, offsets_append, htold, htold']
    simp only
    omega

/-- A tree that is served. -/
structure Serving (pl : Place) (n : KnvNode) : Prop where
  sound : Sound pl n
  measured : All Measured n
  message : All Message n
  leads : All MetasLead n

/-- **A parent that hears of a child has exact sizes**, and tells by how much it has grown. -/
theorem Serving.hear {p : KnvNode} {i : ℕ} (hp : Serving pl p) (hc : p.slot (.ofChild i) = some c)
    (hc' : All Measured c') (htold : offsets msgs = c'.evalSz - c.evalSz)
    (hsound : Sound pl ((p.setSlot (.ofChild i) c').handleAll c'.self msgs).1) :
    Weighs p ⟨((p.setSlot (.ofChild i) c').handleAll c'.self msgs).1,
      ((p.setSlot (.ofChild i) c').handleAll c'.self msgs).2, .ok 0⟩ := by
  have hmem : c ∈ p.childlist := List.mem_of_getElem? hc
  have hne := List.ne_nil_of_mem hmem
  have hexp : p.expanded = true := by
    by_contra hexp
    exact hne (hp.sound.shaped.here.folded (by simpa using hexp)).2
  have hw : Writable p := ⟨hp.message.here hexp (.inr hne), hexp, .inr (.inl hne)⟩
  have hset : AddsUp (offsets msgs) (p.setSlot (.ofChild i) c') := by
    rw [← Int.zero_add (offsets msgs)]
    refine (hw.addsUp hp.sound hp.measured).relist rfl rfl rfl rfl rfl ?_
    rw [setSlot_ofChild, sum_set (fun x : KnvNode => x.evalSz) c c' p.childlist i hc, htold]
    show ((metasAfterKey p.hasKey p.metalist).map (·.evalSz)).sum + _ = _
    omega
  obtain ⟨hsum, htold'⟩ := sum_handleAll (a := c'.self) hset hw.type hp.sound.shaped.here.evaluated
  have ht := touched_handleAll c'.self msgs (p.setSlot (.ofChild i) c')
  have hall : ∀ y ∈ ((p.setSlot (.ofChild i) c').handleAll c'.self msgs).1.metalist ++
      ((p.setSlot (.ofChild i) c').handleAll c'.self msgs).1.childlist, All Measured y := by
    intro y hy
    rw [ht.metalist, ht.childlist, setSlot_ofChild] at hy
    rcases List.mem_append.mp hy with hy | hy
    · exact hp.measured.metas y hy
    · exact (List.mem_or_eq_of_mem_set hy).elim (hp.measured.children y) fun e => e ▸ hc'
  refine ⟨.mk ?_ (fun y hy => hall y (List.mem_append_left _ hy)) fun y hy => hall y (List.mem_append_right _ hy), htold'⟩
  refine hsum.measured hsound.cached.here.toHeld (ht.type.trans hw.type) (ht.expanded.trans hexp) (.inr (.inl ?_))
    fun y hy => (hall y hy).here
  rw [ht.childlist, setSlot_ofChild]
  exact fun hnil => hne (by simpa using hnil)

/-- What a walk that is sound takes over from has exact sizes. -/
structure Weighed (q : Place) (x : KnvNode) : Prop where
  send : Sendable q x
  measured : All Measured x

/-- All parts of a tree with exact sizes have exact sizes. -/
theorem Weighed.part {u : KnvNode} (h : Weighed q u) (hpart : Part u q pl x) : Weighed pl x := by
  induction hpart with
  | root => exact h
  | opened k _ ih => exact ⟨ih.send.opened k, measured_innerExpand ih.send.sound ih.measured k⟩
  | child _ hs ih => exact ⟨ih.send.child hs, ih.measured.children _ hs⟩

/-- **A step of a walk tells by how much the node has grown.** -/
theorem WalkStep.weighs (h : WalkStep T pl n n' msgs) (hT : T.strict) (hsrc : ∀ q x, T.src q x → Weighed q x)
    (hn : Serving pl n) (hsound : Sound pl n') : Weighs n ⟨n', msgs, .ok 0⟩ := by
  have hheld := hsound.cached.here.toHeld
  cases h with
  | expand k =>
    refine ⟨measured_innerExpand hn.sound hn.measured k, ?_⟩
    rw [(expandSame ..).evalSz]
    exact (Int.sub_self _).symm
  | setMeta hx hm htag hw =>
    exact (weighs_setMeta (hw hT) hn.sound hn.measured hn.leads.here htag _ _ hheld).ret _
  | setValue hx hv =>
    unfold KnvNode.setValue
    split
    · exact (weighs_setValueStr hn.sound hn.measured _).ret _
    · exact (weighs_setValueInt hn.measured _).ret _
  | insert hx hs hexp hw =>
    exact (weighs_insert (hw hT) hn.sound hn.measured ((hsrc _ _ hx).send.child hs)
      ((hsrc _ _ hx).measured.children _ hs) hheld).ret _
  | removeByTag t => exact (weighs_removeChildrenByTag hn.sound hn.measured hn.message t hheld).ret _
  | remove a pos hexp => exact (weighs_removeChildByPos hn.sound hn.measured hn.message.here hexp a pos hheld).ret _

/-! ### Where `metas[]` leads -/

theorem metasLead_of_nil (hms : n.metalist = []) (hcs : n.childlist = []) : All MetasLead n :=
  .of_nil (fun hne => absurd hms hne) hms hcs

/-- A node that has been touched, or whose children are others. -/
theorem MetasLead.of_same (h : MetasLead n) (hms : n'.metalist = n.metalist) (hm : n'.metas = n.metas) : MetasLead n' := by
  unfold MetasLead
  rw [hms, hm]
  exact h

theorem MetasLead.innerExpand (h : All MetasLead n) (pk k : Bool) : All MetasLead (n.innerExpand pk k) := by
  cases hexp : n.expanded with
  | true =>
    rw [innerExpand_of_expanded hexp]
    exact h
  | false => exact All.innerExpand h (metasFill_innerExpand hexp pk k).leads fun p _ b k' => (metasLead_of_nil rfl rfl).here

/-- The end of a function that has changed the children. -/
theorem MetasLead.finish (hlead : MetasLead n) (hms : n'.metalist = n.metalist) (hm : n'.metas = n.metas)
    (hmetas : ∀ y ∈ n.metalist, All MetasLead y) (hcs : ∀ y ∈ n'.childlist, All MetasLead y) (o : ℤ) :
    All MetasLead (n'.finish o).node := by
  have ht := touched_finish n' o
  refine .mk (hlead.of_same (ht.metalist.trans hms) (ht.metas.trans hm)) (fun y hy => hmetas y ?_) fun y hy => hcs y ?_
  · rw [ht.metalist, hms] at hy
    exact hy
  · rw [ht.childlist] at hy
    exact hy

/-- A meta is overwritten in its place. -/
theorem MetasLead.overwrite (hn : All MetasLead n) (hs : Shaped n) (hmem : m ∈ n.metalist) (type : PbType)
    (data : Option PbVal) (k : Bool) (o : ℤ) :
    All MetasLead ((n.setMetaNode (m.overwrite t type data k)).finish o).node := by
  have htouch := touched_finish (n.setMetaNode (m.overwrite t type data k)) o
  have hrole : (m.overwrite t type data k).self = m.self ∧ (m.overwrite t type data k).tag = m.tag := by
    rw [overwrite_eq]
    split <;> exact ⟨rfl, rfl⟩
  refine .mk (fun hne u a hu => ?_) (fun y hy => ?_) fun y hy => hn.children y (htouch.childlist ▸ hy)
  · have hne' : n.metalist ≠ [] := List.ne_nil_of_mem hmem
    rw [htouch.metas] at hu
    rw [htouch.metalist]
    obtain ⟨y, hy, hself, htag⟩ := hn.here hne' u a hu
    refine ⟨_, List.mem_map.mpr ⟨y, hy, rfl⟩, ?_⟩
    split
    · next hym =>
      have hym' : y = m := List.inj_on_of_nodup_map (nodup_metas hs.here) hy hmem (hym.trans hrole.1)
      exact ⟨hym.symm.trans hself, by rw [hrole.2, ← hym', htag]⟩
    · exact ⟨hself, htag⟩
  · rw [htouch.metalist] at hy
    obtain ⟨z, hz, rfl⟩ := List.mem_map.mp hy
    split
    · obtain ⟨hms, hcs⟩ := nil_overwrite (t := t) (hs.metas m hmem).here type data k
      exact metasLead_of_nil hms hcs
    · exact hn.metas z hz

/-- A meta that is added is led to. -/
theorem MetasLead.addMetaNode (hn : All MetasLead n) (type : PbType) (data : Option PbVal) (o : ℤ) :
    All MetasLead ((n.addMetaNode t type data).finish o).node := by
  have htouch := touched_finish (n.addMetaNode t type data) o
  obtain ⟨y, hy⟩ : ∃ y, y = (initNode t type data true 0 true).at' n.slots := ⟨_, rfl⟩
  have hmem : ∀ z, z ∈ (n.addMetaNode t type data).metalist ↔ z = y ∨ z ∈ n.metalist := by
    intro z
    unfold KnvNode.addMetaNode
    rw [← hy]
    by_cases ht : t = 1
    · simp [ht]
    · simp [ht, or_comm]
  refine .mk (fun _ u a hu => ?_) (fun z hz => ?_) fun z hz => hn.children z (htouch.childlist ▸ hz)
  · rw [htouch.metas] at hu
    rw [htouch.metalist]
    simp only [KnvNode.addMetaNode] at hu
    split at hu
    · next hut =>
      cases hu
      refine ⟨y, (hmem y).mpr (.inl rfl), hy ▸ rfl, ?_⟩
      rw [hut, hy]
      rfl
    split at hu
    · cases hu
    · next hne =>
      obtain ⟨z, hz, hself, htag⟩ := hn.here (by simpa using hne) u a hu
      exact ⟨z, (hmem z).mpr (.inr hz), hself, htag⟩
  · rw [htouch.metalist] at hz
    rcases (hmem z).mp hz with rfl | hz
    · exact metasLead_of_nil (hy ▸ rfl) (hy ▸ rfl)
    · exact hn.metas z hz

/-- After a step of a walk, `metas[]` leads to metas of its tags. -/
theorem WalkStep.leads (h : WalkStep T pl n n' msgs) (hs : Shaped n) (hn : All MetasLead n) : All MetasLead n' := by
  cases h with
  | expand k => exact MetasLead.innerExpand hn _ _
  | setMeta =>
    have hopen := MetasLead.innerExpand hn pl.parentKeyed false
    refine setMetaInner_rule (P := fun o => All MetasLead o.node) (fun _ _ => hn) fun _ _ _ n' hn' => ?_
    subst hn'
    exact ⟨fun m hm => MetasLead.overwrite hopen (hs.innerExpand ..) (metaAt_mem hm) _ _ _ _,
      fun _ => MetasLead.addMetaNode hopen _ _ _⟩
  | setValue =>
    unfold KnvNode.setValue
    split
    · refine setValueStr_rule (P := fun o => All MetasLead o.node) (fun _ => hn) fun _ _ _ _ _ m hm u hu => ?_
      subst hm
      subst hu
      split
      · exact metasLead_of_nil (touched_updateEvalSz _ _).metalist (touched_updateEvalSz _ _).childlist
      · exact metasLead_of_nil rfl rfl
    · refine setValueInt_rule (P := fun o => All MetasLead o.node) (fun _ => hn) fun _ _ => .mk ?_ hn.metas hn.children
      exact hn.here
  | insert =>
    refine innerInsertChild_rule (P := fun o => All MetasLead o.node) (fun _ => hn) fun c hc c' hc' => ?_
    have hnil := nil_toLink hc
    have hcopy : All MetasLead c' := by
      rw [hc']
      split
      · exact metasLead_of_nil (nil_evaluateSize hnil.1 hnil.2).1 (nil_evaluateSize hnil.1 hnil.2).2
      · exact metasLead_of_nil hnil.1 hnil.2
    refine MetasLead.finish hn.here ?_ ?_ hn.metas (fun x hx => ?_) _
    · rfl
    · rfl
    have hx' : x ∈ n.childlist ∨ x = c'.at' n.slots := by simpa [linkChild, or_comm] using hx
    rcases hx' with hx | rfl
    · exact hn.children x hx
    · exact All.at' (fun _ _ h => h) hcopy
  | removeByTag t =>
    have hopen := MetasLead.innerExpand hn pl.parentKeyed false
    refine removeChildrenByTag_rule (P := fun o => All MetasLead o.node) (fun _ => hn) fun _ n' hn' => ?_
    subst hn'
    refine ⟨hopen, fun _ _ _ o ho => ?_⟩
    rw [ho]
    refine MetasLead.finish hopen.here ?_ ?_ hopen.metas (fun c hc => hopen.children c (List.mem_filter.mp hc).1) _
    · rfl
    · rfl
  | remove a pos _ =>
    refine removeChildByPos_rule (P := fun o => All MetasLead o.node) hn fun _ _ o ho => ?_
    rw [ho]
    refine MetasLead.finish hn.here ?_ ?_ hn.metas (fun c hc => hn.children c (List.mem_of_mem_eraseP hc)) _
    · rfl
    · rfl

/-- A parent that hears of a node. -/
theorem MetasLead.hear {p : KnvNode} {s : Slot} (hp : All MetasLead p) (hc : p.slot s = some c) (hc' : All MetasLead c')
    (hrole : SameRole c c') : All MetasLead ((p.setSlot s c').handleAll c'.self msgs).1 := by
  have ht := touched_handleAll c'.self msgs (p.setSlot s c')
  have hset : MetasLead (p.setSlot s c') := by
    cases s with
    | ofChild i => exact hp.here
    | ofMeta i =>
      intro _ t a hta
      obtain ⟨y, hy, hself, htag⟩ := hp.here (List.ne_nil_of_mem (List.mem_of_getElem? hc)) t a hta
      obtain ⟨j, hj⟩ := List.mem_iff_getElem?.mp hy
      rw [setSlot_ofMeta]
      by_cases hij : i = j
      · subst hij
        have hyc : y = c := Option.some.inj (hj.symm.trans hc)
        refine ⟨c', List.mem_of_getElem? (List.getElem?_set_self (List.getElem?_eq_some_iff.mp hc).1), ?_, ?_⟩
        · rw [hrole.self, ← hyc, hself]
        · rw [hrole.tag, ← hyc, htag]
      · exact ⟨y, List.mem_of_getElem? ((List.getElem?_set_ne hij).trans hj), hself, htag⟩
  exact (hp.setSlot hset hc').touched ht (hset.of_same ht.metalist ht.metas)

/-! ### Walks and reads -/

/-- **A served tree is served after a walk**, whatever it is told to do and whatever it returns. -/
theorem Walk.serving (hT : T.strict) (hvia : ∀ s, T.via s → ∃ i, s = .ofChild i)
    (hsrc : ∀ q x, T.src q x → Weighed q x) (h : Walk T pl n n' msgs) (hn : Serving pl n) : Serving pl n' := by
  refine Edits.rule Serving (fun pl n n' msgs => SameRole n n' ∧ Marked n n' msgs ∧ (Placed pl n → Placed pl n') ∧
      offsets msgs = n'.evalSz - n.evalSz)
    (fun pl p s c hp _ hc => ?_) (fun pl p s c c' msgs hp hs hc hc' hlink => ?_) (fun pl n n' msgs hn hstep => ?_) h hn
  · exact ⟨⟨All.slot hp.sound.cached hc, All.slot hp.sound.shaped hc, (hp.sound.cached.here.toHeld.placed hc).seated⟩,
      All.slot hp.measured hc, All.slot hp.message hc, All.slot hp.leads hc⟩
  · obtain ⟨hrole, hmarked, hplaced, htold⟩ := hlink
    rw [notify_setSlot hc]
    obtain ⟨hsound, hm⟩ := hp.sound.hear hc hc'.sound hrole hmarked hplaced
    have hup : SameRole p ((p.setSlot s c').handleAll c'.self msgs).1 :=
      .trans (by cases s <;> exact ⟨rfl, rfl, rfl, rfl⟩) (touched_handleAll ..).role
    obtain ⟨i, rfl⟩ := hvia s hs
    have hweigh := hp.hear hc hc'.measured htold hsound
    exact ⟨⟨hsound, hweigh.measured, Message.hear hp.message hc hc'.message, MetasLead.hear hp.leads hc hc'.leads hrole⟩,
      hup, hm, .of_same hup.tag hup.noKey, hweigh.told⟩
  · have hsend : ∀ q x, T.src q x → Sendable q x := fun q x hx => (hsrc q x hx).send
    have hfine := hstep.fine hsend hn.sound
    have hsound := hfine.sound hn.sound (hstep.shaped (fun q x hx => (hsend q x hx).sound.shaped) hn.sound.shaped) hstep.role
    have hweigh := hstep.weighs hT hsrc hn hsound
    exact ⟨⟨hsound, hweigh.measured, hstep.message hT hn.message, hstep.leads hn.sound.shaped hn.leads⟩, hstep.role,
      hfine.marked, hfine.placed, hweigh.told⟩

/-- A step of a query leaves what a served tree is, too. -/
theorem ReadStep.rest (h : ReadStep pl n n' msgs) (hs : Shaped n) (hmsg : All Message n) (hlead : All MetasLead n) :
    Shaped n' ∧ All Message n' ∧ All MetasLead n' ∧ SameRole n n' := by
  cases h with
  | expand k =>
    exact ⟨hs.innerExpand .., Message.innerExpand hmsg _ _, MetasLead.innerExpand hlead _ _, (expandSame ..).role⟩
  | fold =>
    refine ⟨(keepsShape_getValueOp hs).1, ?_⟩
    have heval := evaluateSize_of_nonneg hs.here.evaluated
    refine getValueOp_rule (P := fun o => All Message o.node ∧ All MetasLead o.node ∧ SameRole n o.node)
      (fun _ => ⟨hmsg, hlead, .refl n⟩) (fun _ => ?_) (fun _ _ => ⟨hmsg, hlead, .refl n⟩) fun _ _ n' _ hn' _ _ => ?_
    · rw [heval]
      exact ⟨hmsg, hlead, .refl n⟩
    · rw [heval] at hn'
      subst hn'
      exact ⟨message_of_nil rfl rfl, metasLead_of_nil rfl rfl, ⟨rfl, rfl, rfl, rfl⟩⟩

/-- A served tree is served after it has been read. -/
theorem Read.serving (h : Read pl n n' msgs) (hn : Serving pl n) (hfits : All Fits n) : Serving pl n' := by
  obtain ⟨hlegible, -, -⟩ := h.legible ⟨hn.sound, hfits, hn.measured⟩
  have hrest : Shaped n' ∧ All Message n' ∧ All MetasLead n' := by
    refine Edits.rule (fun _ n => Shaped n ∧ All Message n ∧ All MetasLead n) (fun _ n n' _ => SameRole n n')
      (fun _ _ _ _ hp _ hc => ⟨All.slot hp.1 hc, All.slot hp.2.1 hc, All.slot hp.2.2 hc⟩)
      (fun _ p s c c' msgs hp _ hc hc' hrole => ?_) (fun pl n n' _ hn hstep => ?_) h
      ⟨hn.sound.shaped, hn.message, hn.leads⟩
    · rw [notify_setSlot hc]
      have ht := touched_handleAll c'.self msgs (p.setSlot s c')
      exact ⟨⟨(hp.1.setSlot hc hc'.1 hrole.self).touched ht, Message.hear hp.2.1 hc hc'.2.1,
        MetasLead.hear hp.2.2 hc hc'.2.2 hrole⟩, .trans (by cases s <;> exact ⟨rfl, rfl, rfl, rfl⟩) ht.role⟩
    · obtain ⟨hs, hmsg, hlead, hrole⟩ := hstep.rest hn.1 hn.2.1 hn.2.2
      exact ⟨⟨hs, hmsg, hlead⟩, hrole⟩
  exact ⟨hlegible.sound, hlegible.measured, hrest.2.1, hrest.2.2⟩

end KnvNode

/-! ### Runs -/

open KnvNode

namespace KnvNode

theorem serving_parsed {f : PbField} (hok : f.Ok) (hnorm : f.norm = f) (hcanon : Canon MetasFirst f.val.str)
    (h : newFromBytes f.encode = .ok n) : Serving {} n := by
  refine ⟨sound_of_storeRun (.canon (.newFromBytes hok hnorm hcanon h)), ?_, ?_, ?_⟩
  all_goals
    rw [newFromBytes_encode hok hnorm] at h
    cases h
  · exact measured_ofField hnorm false 0
  · exact message_of_nil rfl rfl
  · exact metasLead_of_nil rfl rfl

end KnvNode

end KnvProto
