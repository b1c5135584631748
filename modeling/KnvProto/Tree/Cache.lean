import KnvProto.Tree.Marked

/-!
# The cached value never hides an update

What every function does to the value of its node (`Fine`), and the runs.

The steps of a `CanonRun` that are `Tame` leave no value that hides anything
(`cache_of_run`): what they are given is canonical, with metas before children,
and children have tags of children.
-/

namespace KnvProto

open PathEdit

namespace KnvNode

/-! ### What one operation does -/

/-- A node is valid, and is not taken for the key of its parent. -/
structure Seated (pl : Place) (n : KnvNode) : Prop where
  valid : n.isValid = true
  key : n.tag = 1 → pl.parentKeyed = true → n.noKey = true

theorem Placed.seated {pl : Place} {n : KnvNode} (h : Placed pl n) : Seated pl n := by
  have hne : ∀ {t : UInt32}, t.toNat ≠ 0 → t ≠ 0 := fun ht h0 => ht (by rw [h0]; rfl)
  cases hm : pl.isMeta with
  | true =>
    obtain ⟨htag, hno⟩ := h.isMeta hm
    exact ⟨bne_iff_ne.mpr (hne (Nat.ne_of_gt htag.ok.1)), fun _ _ => hno⟩
  | false =>
    have htag := h.child hm
    refine ⟨bne_iff_ne.mpr (hne (Nat.ne_of_gt htag.ok.1)), fun h1 _ => ?_⟩
    rw [h1] at htag
    exact absurd htag.1 (by decide)

/-- What an operation on a node `n` at its place leaves. -/
structure Fine (pl : Place) (n : KnvNode) (o : Out) : Prop where
  /-- No value hides anything. -/
  cached : All Cached o.node
  /-- The parent is told. -/
  marked : Marked n o.node o.msgs
  /-- The node may stay where it is. -/
  placed : Placed pl n → Placed pl o.node
  valid : o.node.isValid = true

variable {pl : Place} {n : KnvNode}

/-- A node before an operation. -/
structure Sound (pl : Place) (n : KnvNode) : Prop where
  cached : All Cached n
  shaped : Shaped n
  seated : Seated pl n

theorem Marked.refl {evs : List Ev} (h : ∀ o e d, Ev.update o e d ∉ evs) : Marked n n evs := .same h rfl rfl id

theorem not_update_nil : ∀ o e d, Ev.update o e d ∉ ([] : List Ev) := fun _ _ _ h => absurd h List.not_mem_nil

theorem fine_same (hn : Sound pl n) (ret : Except KnvErr ℕ) : Fine pl n ⟨n, [], ret⟩ :=
  ⟨hn.cached, .refl not_update_nil, id, hn.seated.valid⟩

/-- A node after an expansion. -/
structure Entered (n n' : KnvNode) : Prop where
  cached : All Cached n'
  shaped : Shaped n'
  same : ExpandSame n n'
  expanded : n'.expanded = true
  plainVal : n'.plainVal = n.plainVal
  dirty : n'.subnodeDirty = true → n.subnodeDirty = true

theorem entered (hn : Sound pl n) : Entered n (n.innerExpand pl.parentKeyed false) := by
  obtain ⟨hc, hd⟩ := cached_innerExpand hn.cached hn.shaped hn.seated.key false
  exact ⟨hc, hn.shaped.innerExpand _ _, expandSame .., innerExpand_expanded .., expand_plainVal hn.cached.here .., hd⟩

theorem Placed.of_same {n' : KnvNode} (htag : n'.tag = n.tag) (hno : n'.noKey = n.noKey) (h : Placed pl n) :
    Placed pl n' :=
  ⟨fun hm => by rw [htag, hno]; exact h.isMeta hm, fun hm => by rw [htag]; exact h.child hm⟩

theorem Entered.fine {n' : KnvNode} (h : Entered n n') (hn : Sound pl n) (ret : Except KnvErr ℕ) :
    Fine pl n ⟨n', [], ret⟩ := by
  refine ⟨h.cached, .same not_update_nil ?_ h.same.tag h.dirty, .of_same h.same.tag h.same.noKey, ?_⟩
  · rw [plain, plain, h.plainVal, fieldOf, fieldOf, h.same.tag, h.same.type, h.same.val]
  · rw [isValid, h.same.tag]
    exact hn.seated.valid

/-- What a function does at its end: the node has no value any more, and all parents hear of it. -/
theorem fine_finish {n' : KnvNode} (hn : Sound pl n) (h : Held n') (hms : ∀ m ∈ n'.metalist, All Cached m)
    (hcs : ∀ c ∈ n'.childlist, All Cached c) (hexp : n'.expanded = true) (htag : n'.tag = n.tag)
    (hno : n'.noKey = n.noKey) (o : ℤ) : Fine pl n (n'.finish o) := by
  have ht := touched_finish n' o
  have hval : (n'.finish o).node.val.str = [] ∧ (n'.finish o).node.subnodeDirty = true := ⟨rfl, rfl⟩
  obtain ⟨hval, hdirty⟩ := hval
  have hmsgs : ∃ o₁ e, Ev.update o₁ e true ∈ (n'.finish o).msgs := by
    unfold finish
    exact ⟨_, _, List.mem_singleton_self _⟩
  have hclean : (n'.finish o).node.isClean = false := by rw [isClean, hdirty, Bool.not_true, Bool.and_false]
  have hheld := h.touched ht (SizeFits.finish h.size o)
  generalize n'.finish o = r at *
  refine ⟨.mk ⟨hheld, fun _ hcl => ?_, fun _ _ => hval ▸ canon_nil _, fun _ hset => ?_, fun he => ?_, fun _ _ _ => hdirty⟩
    (ht.metalist ▸ hms) (ht.childlist ▸ hcs), .dirty hdirty (.inr hmsgs),
    .of_same (ht.tag.trans htag) (ht.noKey.trans hno), ?_⟩
  · rw [hclean] at hcl
    cases hcl
  · obtain ⟨-, hne | he⟩ | ⟨-, hcl⟩ := hset
    · exact absurd hval hne
    · rw [ht.expanded, hexp] at he
      cases he
    · rw [hclean] at hcl
      cases hcl
  · rw [ht.expanded, hexp] at he
    cases he
  · rw [isValid, ht.tag, htag]
    exact hn.seated.valid

theorem fine_expandOp (hn : Sound pl n) : Fine pl n (n.expandOp pl) := by
  unfold expandOp expand
  rw [if_pos hn.seated.valid]
  exact (entered hn).fine hn _

/-! #### Children -/

/-- Fewer children, and another index. -/
theorem Held.fewer {n' : KnvNode} (h : Held n) (ht : KnvHt) {cs : List KnvNode}
    (hn' : n' = { n with ht := ht, childlist := cs })
    (hcs : ∀ c ∈ cs, ChildTag c.tag) : Held n' := by
  subst hn'
  exact ⟨h.size, h.keyInit, h.keyCanon, h.keyed, ⟨h.index.inj, h.index.old⟩, h.metas, hcs⟩

theorem fine_fewer {n' : KnvNode} (hn : Sound pl n) (ho : Entered n n') (ht : KnvHt) {cs : List KnvNode}
    (hcs : ∀ c ∈ cs, c ∈ n'.childlist) (o : ℤ) : Fine pl n (finish { n' with ht := ht, childlist := cs } o) := by
  have hheld : Held { n' with ht := ht, childlist := cs } :=
    ho.cached.here.toHeld.fewer ht rfl fun c hc => ho.cached.here.children c (hcs c hc)
  exact fine_finish hn hheld ho.cached.metas (fun c hc => ho.cached.children c (hcs c hc)) ho.expanded ho.same.tag
    ho.same.noKey o

theorem Fine.ret {o : Out} (h : Fine pl n o) (ret : Except KnvErr ℕ) : Fine pl n ⟨o.node, o.msgs, ret⟩ :=
  ⟨h.cached, h.marked, h.placed, h.valid⟩

theorem fine_removeChild (hn : Sound pl n) (t : UInt32) (k : Bytes) : Fine pl n (n.removeChild t k pl) := by
  refine removeChild_rule (fine_same hn _) fun _ n' hn' => ?_
  have ho : Entered n n' := hn' ▸ entered hn
  refine ⟨ho.fine hn _, fun a _ => removeChildByPos_rule (ho.fine hn _) fun c _ o hout => ?_⟩
  rw [hout]
  exact (fine_fewer hn ho _ (fun _ hx => List.mem_of_mem_eraseP hx) _).ret _

theorem fine_removeChildrenByTag (hn : Sound pl n) (t : UInt32) : Fine pl n (n.removeChildrenByTag t pl) := by
  refine removeChildrenByTag_rule (fun _ => fine_same hn _) fun _ n' hn' => ?_
  have ho : Entered n n' := hn' ▸ entered hn
  refine ⟨ho.fine hn _, fun matched _ _ o hout => ?_⟩
  rw [hout]
  exact (fine_fewer hn ho _ (fun _ hx => (List.mem_filter.mp hx).1) _).ret _

/-- What may be inserted as a copy: its value is the one it will have, or will be written. -/
structure Copied (c : KnvNode) : Prop where
  fits : All Fits c
  value : c.isFolded = true ∨ c.isClean = true ∨ c.val.str = []

theorem cached_toLink {child c : KnvNode} {own : Bool} (hc : All Cached child) (hs : Shaped child)
    (hcopy : own = false → Copied child) (h : child.toLink own = .ok c) :
    All Cached c ∧ Shaped c ∧ c.tag = child.tag := by
  unfold toLink at h
  split at h
  · cases h
    exact ⟨hc, hs, rfl⟩
  next hown =>
  obtain ⟨hfits, hvalue⟩ := hcopy (by simpa using hown)
  have hheld := hc.here.toHeld
  -- a copy of a value whose length the cached size is
  have key : ∀ v : PbVal, (child.type = .string → Canon MetasFirst v.str ∧ child.evalValSz = v.str.length) →
      All Cached (initNode child.tag child.type (some v) true child.evalSz.toNat false) := by
    intro v hv
    refine .of_nil (cached_initNode _ _ _ _ _ (fun ht w hw => ?_) fun ht => .inr ?_) rfl rfl
    · cases hw
      exact (hv ht).1
    · have hval : (initNode child.tag child.type (some v)).val.str = v.str := by rw [ht]; rfl
      rw [hval, hheld.size ht, (hv ht).2, Int.toNat_natCast, Int.toNat_natCast]
  unfold innerDuplicate at h
  rw [evaluateSize_of_nonneg hs.here.evaluated] at h
  split at h
  · simp only at h
    split at h
    · cases h
    next out hout =>
    split at h
    · cases h
    next hlen =>
    cases h
    rw [(plain_serialize (hc.imp fun _ h => h.honest) hs _ out).2 hout] at hlen ⊢
    exact ⟨key _ fun ht => ⟨canon_plainVal hc hfits ht, not_not.mp hlen⟩, shaped_initNode .., rfl⟩
  · next hexp =>
    cases h
    refine ⟨key _ fun ht => ?_, shaped_initNode .., rfl⟩
    have hexp' : child.val.str ≠ [] ∨ child.expanded = false := by
      by_contra hcon
      rw [not_or, ne_eq, not_not, Bool.not_eq_false] at hcon
      exact hexp ⟨ht, hcon⟩
    cases hf : child.isFolded with
    | true => exact ⟨hc.here.canon ht hf, hc.here.len ht (.inl ⟨hf, hexp'⟩)⟩
    | false =>
      have hcl : child.isClean = true := by
        rcases hvalue with h | h | h
        · rw [hf] at h
          cases h
        · exact h
        · rcases hexp' with hne | he
          · exact absurd h hne
          · rw [expanded_of_not_folded hf] at he
            cases he
      rw [hc.here.len ht (.inr ⟨hf, hcl⟩), hc.here.clean hf hcl]
      exact ⟨canon_plainVal hc hfits ht, rfl⟩

theorem held_linkChild {c : KnvNode} (h : Held n) (hc : ChildTag c.tag) (atTail : Bool) : Held (n.linkChild c atTail) := by
  refine ⟨h.size, h.keyInit, h.keyCanon, h.keyed,
    ⟨h.index.inj, fun hne t a ht => Nat.lt_succ_of_lt (h.index.old hne t a ht)⟩,
    h.metas, fun x hx => ?_⟩
  have hx' : x ∈ n.childlist ∨ x = c.at' n.slots := by
    cases atTail <;> simpa [linkChild, or_comm] using hx
  rcases hx' with hx | rfl
  · exact h.children x hx
  · exact hc

theorem fine_insertChild {child : KnvNode} {own : Bool} (hn : Sound pl n) (hc : All Cached child) (hs : Shaped child)
    (htag : ChildTag child.tag) (hcopy : own = false → Copied child) (atTail : Bool) :
    Fine pl n (insertChild child own atTail pl n) := by
  refine insertChild_rule (fun _ => fine_same hn _) fun _ _ n' hn' => ?_
  have ho : Entered n n' := hn' ▸ entered hn
  refine ⟨fun _ => ho.fine hn _, fun c hlink c' hc' => ?_⟩
  obtain ⟨hcc, hcs, hct⟩ := cached_toLink hc hs hcopy hlink
  rw [evaluateSize_of_nonneg hcs.here.evaluated, ite_self] at hc'
  subst hc'
  refine fine_finish hn (held_linkChild ho.cached.here.toHeld (hct ▸ htag) atTail) ho.cached.metas (fun x hx => ?_)
    ho.expanded ho.same.tag ho.same.noKey _
  have hx' : x ∈ n'.childlist ∨ x = c'.at' n'.slots := by
    cases atTail <;> simpa [linkChild, or_comm] using hx
  rcases hx' with hx | rfl
  · exact ho.cached.children x hx
  · exact hcc.cached_at'

/-! #### Metas and keys -/

/-- What a value may be set to: a canonical string. -/
def Given (C : List PbField → Prop) (type : PbType) (data : Option PbVal) : Prop :=
  type = .string → ∀ v, data = some v → Canon C v.str

/-- A key that may become the key of a node, and the key it has when only a meta is set. -/
inductive Rekey (n : KnvNode) (tag : UInt32) (k : KnvKey) : Prop
  /-- A meta is set. -/
  | same : k = n.key → tag ≠ 1 ∨ n.noKey = true → Rekey n tag k
  /-- The key is set. -/
  | other : tag = 1 → (∃ t v, k = KnvKey.init t v) → (k.type = .string → Canon MetasFirst k.bytes) → Rekey n tag k

theorem Rekey.init {tag : UInt32} {k : KnvKey} (h : Rekey n tag k) (hn : Held n) : ∃ t v, k = KnvKey.init t v := by
  cases h with
  | same hk _ => exact hk ▸ hn.keyInit
  | other _ hk _ => exact hk

theorem Rekey.canon {tag : UInt32} {k : KnvKey} (h : Rekey n tag k) (hn : Held n) :
    k.type = .string → Canon MetasFirst k.bytes := by
  cases h with
  | same hk _ => exact hk ▸ hn.keyCanon
  | other _ _ hk => exact hk

/-- The tags of metas are one byte long. -/
theorem MetaTag.length {tag : UInt32} (h : MetaTag tag) : pbEvalTagLength .string tag = 1 := by
  have hall : ∀ i : Fin 11, pbEvalTagLength .string (UInt32.ofNat i) = 1 := by decide
  have hlt : tag.toNat ≤ 10 := h.2
  have h' := hall ⟨tag.toNat, by omega⟩
  rwa [UInt32.ofNat_toNat] at h'

theorem canon_metaVal {type : PbType} {data : Option PbVal} (h : Given MetasFirst type data) (ht : type = .string) :
    Canon MetasFirst (metaVal type data).str := by
  cases data with
  | none => exact canon_nil _
  | some v =>
    rw [metaVal, ht]
    exact h ht v rfl

/-- A meta that is set over another value. -/
theorem cached_overwrite {m : KnvNode} {tag : UInt32} {type : PbType} {data : Option PbVal} (h : Cached m) (hs : Shape m)
    (hm : MetaTag m.tag) (hno : m.noKey = true) (htag : MetaTag tag) (hg : Given MetasFirst type data) (isKey : Bool) :
    All Cached (m.overwrite tag type data isKey) := by
  have hlists : (m.overwrite tag type data isKey).metalist = [] ∧ (m.overwrite tag type data isKey).childlist = [] := by
    rw [overwrite_eq]
    split
    · exact ⟨rfl, rfl⟩
    · next hexp => exact hs.folded (by simpa using hexp)
  have hmembers : (m.overwrite tag type data isKey).tag = m.tag ∧ (m.overwrite tag type data isKey).noKey = m.noKey ∧
      (m.overwrite tag type data isKey).key = m.key ∧ (m.overwrite tag type data isKey).type = type ∧
      (m.overwrite tag type data isKey).val = metaVal type data ∧
      (m.overwrite tag type data isKey).evalValSz = (if type = .string then (metaVal type data).str.length else 0 : ℕ) ∧
      (m.overwrite tag type data isKey).evalSz = metaSize tag type data := by
    rw [overwrite_eq]
    split <;> exact ⟨rfl, rfl, rfl, rfl, rfl, by split <;> rfl, rfl⟩
  generalize m.overwrite tag type data isKey = q at *
  obtain ⟨hms, hcs⟩ := hlists
  obtain ⟨hqtag, hqno, hqkey, hqtype, hqval, hqsz, hqeval⟩ := hmembers
  have hfold := isFolded_of_nil hms hcs
  have hhas : q.hasKey = true → False := by simp [hasKey, hqno, hno]
  have hlen : type = .string → q.evalValSz = q.val.str.length := by
    intro ht
    rw [hqsz, hqval, if_pos ht]
  refine .of_nil ⟨⟨fun ht => ?_, hqkey ▸ h.keyInit, hqkey ▸ h.keyCanon, fun _ _ hk => (hhas hk).elim,
    ⟨fun hne => absurd hms hne, fun hne => absurd hms hne⟩, by simp [hms], by simp [hcs]⟩, fun hf => ?_, fun ht _ => ?_,
    fun ht _ => hlen (hqtype ▸ ht), fun _ hk => (hhas hk).elim, by simp [hms, hcs]⟩ hms hcs
  · rw [hqtype] at ht
    rw [hlen ht, hqval, hqeval, hqtag, metaSize, ht, Int.toNat_natCast, pbEvalFieldLength, pbEvalLength, pbEvalLength,
      htag.length, hm.length]
  · rw [hfold] at hf
    cases hf
  · rw [hqval]
    exact canon_metaVal hg (hqtype ▸ ht)

theorem mem_of_metaAt {m : KnvNode} {tag : UInt32} (h : n.metaAt tag = some m) :
    m ∈ n.metalist ∧ n.metas tag = some m.self := by
  unfold metaAt at h
  split at h
  · cases h
  · obtain ⟨a, ha, hfind⟩ := Option.bind_eq_some_iff.mp h
    have hself := List.find?_some hfind
    exact ⟨List.mem_of_find?_eq_some hfind, by rw [ha, of_decide_eq_true hself]⟩

/-- A node with a key, or that gets one, has it among its metas after tag 1 has been set. -/
theorem Rekey.keyed {tag : UInt32} {k : KnvKey} (h : Rekey n tag k) (hn : Held n) (ht : n.type = .string)
    (hexp : n.expanded = true) (hk : ({ n with key := k } : KnvNode).hasKey = true) : tag = 1 ∨ n.metaAt 1 ≠ none := by
  cases h with
  | same hkey _ =>
    subst hkey
    exact .inr (hn.keyed ht hexp hk)
  | other htag _ _ => exact .inl htag

theorem held_addMetaNode {tag : UInt32} {k : KnvKey} (h : Held n) (htag : MetaTag tag) (hr : Rekey n tag k) (type : PbType)
    (data : Option PbVal) : Held (addMetaNode { n with key := k } tag type data) := by
  obtain ⟨m, hm⟩ : ∃ m, m = (initNode tag type data true 0 true).at' n.slots := ⟨_, rfl⟩
  have hmem : ∀ x, x ∈ (addMetaNode { n with key := k } tag type data).metalist ↔ x ∈ n.metalist ∨ x = m := by
    intro x
    rw [hm]
    simp only [addMetaNode]
    split <;> simp [or_comm]
  have hmetas : ∀ t, (addMetaNode { n with key := k } tag type data).metas t =
      if t = tag then some n.slots else if n.metalist.isEmpty then none else n.metas t := by
    intro t
    simp only [addMetaNode]
    split
    · rfl
    · split <;> rfl
  have hold : ∀ {t a}, (if n.metalist.isEmpty then none else n.metas t) = some a → n.metalist ≠ [] ∧ n.metas t = some a := by
    intro t a hta
    split at hta
    · cases hta
    · next hne => exact ⟨by simpa using hne, hta⟩
  refine ⟨h.size, hr.init h, hr.canon h, fun ht hexp hk => ?_,
    ⟨fun _ t t' a hta hta' => ?_, fun _ t a hta => ?_⟩, fun x hx => ?_,
    h.children⟩
  · rw [metaAt_ne_none_iff]
    by_cases h1 : tag = 1
    · exact ⟨n.slots, by rw [hmetas, if_pos h1.symm], m, (hmem m).mpr (.inr rfl), by rw [hm]; rfl⟩
    · obtain ⟨a, ha, x, hx, hxa⟩ := metaAt_ne_none_iff.mp ((hr.keyed h ht hexp hk).resolve_left h1)
      have hne : n.metalist.isEmpty = false := by
        cases hl : n.metalist with
        | nil => rw [hl] at hx; exact absurd hx List.not_mem_nil
        | cons _ _ => rfl
      refine ⟨a, ?_, x, (hmem x).mpr (.inl hx), hxa⟩
      rw [hmetas, if_neg (Ne.symm h1), hne]
      exact ha
  · rw [hmetas] at hta hta'
    split at hta <;> split at hta'
    · next ht ht' => rw [ht, ht']
    · obtain ⟨hne, hta'⟩ := hold hta'
      have hlt := h.index.old hne t' a hta'
      cases hta
      omega
    · obtain ⟨hne, hta⟩ := hold hta
      have hlt := h.index.old hne t a hta
      cases hta'
      omega
    · obtain ⟨hne, hta⟩ := hold hta
      exact h.index.inj hne t t' a hta (hold hta').2
  · rw [hmetas] at hta
    show a < n.slots + 1
    split at hta
    · cases hta
      omega
    · obtain ⟨hne, hta⟩ := hold hta
      have hlt := h.index.old hne t a hta
      omega
  · rcases (hmem x).mp hx with hx | rfl
    · exact h.metas x hx
    · rw [hm]
      exact ⟨htag, rfl⟩

theorem held_setMetaNode {tag : UInt32} {k : KnvKey} {m m' : KnvNode} (h : Held n) (hm : n.metaAt tag = some m)
    (hself : m'.self = m.self) (hm' : MetaTag m'.tag ∧ m'.noKey = true) (hr : Rekey n tag k) :
    Held (setMetaNode { n with key := k } m') := by
  have hmem : ∀ x, x ∈ (setMetaNode { n with key := k } m').metalist → x ∈ n.metalist ∨ x = m' := by
    intro x hx
    obtain ⟨y, hy, rfl⟩ := List.mem_map.mp hx
    split
    · exact .inr rfl
    · exact .inl hy
  have hne : (setMetaNode { n with key := k } m').metalist ≠ [] → n.metalist ≠ [] := by simp [setMetaNode]
  refine ⟨h.size, hr.init h, hr.canon h, fun ht hexp hk => ?_,
    ⟨fun hms => h.index.inj (hne hms), fun hms => h.index.old (hne hms)⟩,
    fun x hx => ?_, h.children⟩
  · have h1 : n.metaAt 1 ≠ none := by
      rcases hr.keyed h ht hexp hk with rfl | h1
      · rw [hm]
        exact Option.some_ne_none _
      · exact h1
    obtain ⟨a, ha, x, hx, hxa⟩ := metaAt_ne_none_iff.mp h1
    refine metaAt_ne_none_iff.mpr ⟨a, ha, _, List.mem_map.mpr ⟨x, hx, rfl⟩, ?_⟩
    split
    · next hxm => exact hxm.symm.trans hxa
    · exact hxa
  · rcases hmem x hx with hx | rfl
    · exact h.metas x hx
    · exact hm'

/-- The key of a number is not written. -/
theorem fine_rekey {tag : UInt32} {k : KnvKey} (hn : Sound pl n) (ht : n.type ≠ .string) (hr : Rekey n tag k)
    (ret : Except KnvErr ℕ) : Fine pl n ⟨{ n with key := k }, [], ret⟩ := by
  have h := hn.cached.here
  have hfold : isFolded { n with key := k } = true := by simp [isFolded, ht]
  refine ⟨.mk ⟨⟨fun hs => absurd hs ht, hr.init h.toHeld, hr.canon h.toHeld, fun hs => absurd hs ht,
    ⟨h.index.inj, h.index.old⟩, h.metas, h.children⟩, fun hf => ?_, fun hs => absurd hs ht, fun hs => absurd hs ht,
    fun _ _ hs => absurd hs ht, h.dirty⟩ hn.cached.metas hn.cached.children, .same not_update_nil ?_ rfl id,
    .of_same rfl rfl, hn.seated.valid⟩
  · rw [hfold] at hf
    cases hf
  · rw [plain, plain, fieldOf, fieldOf, if_neg ht, if_neg ht]

theorem fine_setMetaInner {tag : UInt32} {k : KnvKey} {type : PbType} {data : Option PbVal} (hn : Sound pl n)
    (hr : Rekey n tag k) (htag : tag ≠ 0) (hg : Given MetasFirst type data) :
    Fine pl n (setMetaInner tag type data true pl { n with key := k }) := by
  refine setMetaInner_rule (fun hwhy e => ?_) fun _ _ hle n' hn' => ?_
  · -- a number has no metas
    by_cases ht : n.type = .string
    swap
    · exact fine_rekey hn ht hr _
    cases hr with
    | same hk _ =>
      subst hk
      obtain ⟨d, ms, cs⟩ := n
      exact fine_same hn _
    | other h1 _ _ =>
      rcases hwhy with hv | hs | hlt
      · exact absurd (hv.symm.trans hn.seated.valid) Bool.false_ne_true
      · exact absurd ht hs
      · rw [h1] at hlt
        exact absurd hlt (by decide)
  · have hmtag : MetaTag tag := ⟨UInt32.pos_iff_ne_zero.mpr htag, hle⟩
    have ho := entered hn
    rw [innerExpand_key] at hn'
    generalize n.innerExpand pl.parentKeyed false = n₁ at *
    subst hn'
    have hr' : Rekey n₁ tag k := by
      cases hr with
      | same hk hno => exact .same (hk.trans ho.same.key.symm) (ho.same.noKey ▸ hno)
      | other h1 hi hc => exact .other h1 hi hc
    refine ⟨fun m hm => ?_, fun _ => ?_⟩
    · obtain ⟨hmem, -⟩ := mem_of_metaAt (n := n₁) hm
      obtain ⟨hmt, hmno⟩ := ho.cached.here.metas m hmem
      have hover := cached_overwrite (ho.cached.metas m hmem).here (ho.shaped.metas m hmem).here hmt hmno hmtag hg
        (!n₁.noKey && tag == 1)
      have hmembers : MetaTag (m.overwrite tag type data (!n₁.noKey && tag == 1)).tag ∧
          (m.overwrite tag type data (!n₁.noKey && tag == 1)).noKey = true := by
        rw [overwrite_eq]
        split <;> exact ⟨hmt, hmno⟩
      refine fine_finish hn (held_setMetaNode ho.cached.here.toHeld hm (self_overwrite ..) hmembers hr') (fun x hx => ?_)
        ho.cached.children ho.expanded ho.same.tag ho.same.noKey _
      obtain ⟨y, hy, rfl⟩ := List.mem_map.mp hx
      split
      · exact hover
      · exact ho.cached.metas y hy
    · refine fine_finish hn (held_addMetaNode ho.cached.here.toHeld hmtag hr' type data) (fun x hx => ?_) ho.cached.children
        ho.expanded ho.same.tag ho.same.noKey _
      have hx' : x ∈ n₁.metalist ∨ x = (initNode tag type data true 0 true).at' n₁.slots := by
        simp only [addMetaNode] at hx
        split at hx <;> simpa [or_comm] using hx
      rcases hx' with hx | rfl
      · exact ho.cached.metas x hx
      · exact All.cached_at' (.of_nil (cached_initNode _ _ _ _ _ hg fun _ => .inl rfl) rfl rfl)

/-- A node without key that loses its key is written as before. -/
theorem plainVal_of_no_key {k : KnvKey} {b : Bool} (h : n.type = .string → n.expanded = true → n.hasKey = false)
    (hk : k.bytes = []) : plainVal { n with key := k, noKey := b } = n.plainVal := by
  have h' : hasKey { n with key := k, noKey := b } = false := by simp [hasKey, hk]
  have hfold : isFolded { n with key := k, noKey := b } = n.isFolded := rfl
  cases hf : n.isFolded with
  | true => rw [plainVal_of_folded hf, plainVal_of_folded (hfold.trans hf)]
  | false =>
    rw [plainVal_of_not_folded hf, plainVal_of_not_folded (hfold.trans hf), keyBytes, keyBytes,
      h (type_of_not_folded hf) (expanded_of_not_folded hf), h']
    rfl

theorem cached_of_no_key {k : KnvKey} {b : Bool} (h : All Cached n)
    (hno : n.type = .string → n.expanded = true → n.hasKey = false)
    (hk : k.bytes = []) (hinit : ∃ t v, k = KnvKey.init t v) :
    All Cached { n with key := k, noKey := b } ∧ plain { n with key := k, noKey := b } = n.plain := by
  have h' : hasKey { n with key := k, noKey := b } = false := by simp [hasKey, hk]
  have hn := h.here
  have hplain := plainVal_of_no_key (b := b) hno hk
  refine ⟨.mk ⟨⟨hn.size, hinit, fun _ => ?_, fun _ _ hhas => ?_, ⟨hn.index.inj, hn.index.old⟩, hn.metas, hn.children⟩,
    fun hf hcl => ?_, hn.canon, hn.len, fun _ hhas => ?_, hn.dirty⟩ h.metas h.children, ?_⟩
  · rw [hk]
    exact canon_nil _
  · rw [h'] at hhas
    cases hhas
  · exact (hn.clean hf hcl).trans hplain.symm
  · rw [h'] at hhas
    cases hhas
  · rw [plain, plain, hplain]
    rfl

theorem held_eraseMeta {tag : UInt32} {k : KnvKey} {m : KnvNode} (h : Held n) (hm : n.metaAt tag = some m)
    (hk : k = n.key ∧ tag ≠ 1 ∨ k.bytes = [] ∧ ∃ t v, k = KnvKey.init t v) :
    Held { n with
      key := k
      metalist := n.metalist.eraseP fun x => x.self = m.self
      metas := fun t => if t = tag then none else n.metas t } := by
  obtain ⟨hmem, hlead⟩ := mem_of_metaAt hm
  have hne : n.metalist ≠ [] := List.ne_nil_of_mem hmem
  have hold : ∀ {t a}, (if t = tag then none else n.metas t) = some a → n.metas t = some a := by
    intro t a hta
    split at hta
    · cases hta
    · exact hta
  refine ⟨h.size, ?_, ?_, fun ht hexp hhas => ?_, ⟨fun _ t t' a hta hta' => h.index.inj hne t t' a (hold hta) (hold hta'),
    fun _ t a hta => h.index.old hne t a (hold hta)⟩, fun x hx => h.metas x (List.mem_of_mem_eraseP hx), h.children⟩
  · rcases hk with ⟨hk, -⟩ | ⟨-, hk⟩
    · exact hk ▸ h.keyInit
    · exact hk
  · rcases hk with ⟨hk, -⟩ | ⟨hk, -⟩
    · exact hk ▸ h.keyCanon
    · intro _
      show Canon MetasFirst k.bytes
      rw [hk]
      exact canon_nil _
  · rcases hk with ⟨rfl, h1⟩ | ⟨hk, -⟩
    · -- the key's meta is another one
      obtain ⟨a, ha, x, hx, hxa⟩ := metaAt_ne_none_iff.mp (h.keyed ht hexp hhas)
      refine metaAt_ne_none_iff.mpr ⟨a, (if_neg (Ne.symm h1)).trans ha, x, ?_, hxa⟩
      refine (List.mem_eraseP_of_neg ?_).mpr hx
      rw [decide_eq_true_eq, hxa]
      rintro rfl
      exact h1 (h.index.inj hne tag 1 m.self hlead ha)
    · rw [hasKey, hk] at hhas
      simp at hhas

theorem fine_innerRemoveMeta (hn : Sound pl n) (tag : UInt32) {k : KnvKey}
    (hk : k = n.key ∧ tag ≠ 1 ∨ tag = 1 ∧ k.bytes = [] ∧ ∃ t v, k = KnvKey.init t v) :
    Fine pl n (innerRemoveMeta tag pl { n with key := k }) := by
  have hk' : k = n.key ∧ tag ≠ 1 ∨ k.bytes = [] ∧ ∃ t v, k = KnvKey.init t v := hk.imp_right (·.2)
  refine innerRemoveMeta_rule (fun hwhy e => ?_) fun _ _ n' hn' => ?_
  · rcases hk with ⟨rfl, -⟩ | ⟨h1, -, -⟩
    · obtain ⟨d, ms, cs⟩ := n
      exact fine_same hn _
    · rcases hwhy with hv | hlt
      · exact absurd (hv.symm.trans hn.seated.valid) Bool.false_ne_true
      · rw [h1] at hlt
        exact absurd hlt (by decide)
  · have ho := entered hn
    rw [innerExpand_key] at hn'
    generalize n.innerExpand pl.parentKeyed false = n₁ at *
    subst hn'
    refine ⟨fun hnone => ?_, fun m hm => ?_⟩
    · rcases hk with ⟨rfl, -⟩ | ⟨rfl, hnil, hinit⟩
      · rw [← ho.same.key]
        obtain ⟨d, ms, cs⟩ := n₁
        exact ho.fine hn _
      · -- there was no key before
        have hno : n₁.type = .string → n₁.expanded = true → n₁.hasKey = false := by
          intro ht hexp
          cases hhas : n₁.hasKey with
          | false => rfl
          | true => exact absurd hnone (ho.cached.here.keyed ht hexp hhas)
        obtain ⟨hc, hp⟩ := cached_of_no_key (b := n₁.noKey) ho.cached hno hnil hinit
        have hfine := ho.fine hn (.ok 0)
        refine ⟨hc, .same not_update_nil (hp.trans ?_) ho.same.tag ho.dirty, .of_same ho.same.tag ho.same.noKey, hfine.valid⟩
        rw [plain, plain, ho.plainVal, fieldOf, fieldOf, ho.same.tag, ho.same.type, ho.same.val]
    · have hk₁ : k = n₁.key ∧ tag ≠ 1 ∨ k.bytes = [] ∧ ∃ t v, k = KnvKey.init t v := ho.same.key.symm ▸ hk'
      have hheld := held_eraseMeta ho.cached.here.toHeld (k := k) hm hk₁
      exact fine_finish hn hheld (fun x hx => ho.cached.metas x (List.mem_of_mem_eraseP hx)) ho.cached.children ho.expanded
        ho.same.tag ho.same.noKey _

theorem noKey_setMetaInner (tag : UInt32) (type : PbType) (data : Option PbVal) :
    (n.setMetaInner tag type data true pl).node.noKey = n.noKey := by
  refine setMetaInner_rule (P := fun o => o.node.noKey = n.noKey) (fun _ _ => rfl) fun _ _ _ n' hn' => ?_
  have hno : n'.noKey = n.noKey := hn' ▸ (expandSame ..).noKey
  exact ⟨fun m _ => (touched_finish _ _).noKey.trans hno, fun _ => (touched_finish _ _).noKey.trans hno⟩

/-- What the index hears does not matter. -/
theorem Marked.around {n' : KnvNode} {evs : List Ev} (h : Marked n n' evs) (tag tag' : UInt32) (key key' : Bytes) :
    Marked n n' ([.htRemove tag key] ++ evs ++ [.htPut tag' key']) := by
  cases h with
  | same hquiet hplain htag hdirty =>
    refine .same (fun o e d hmem => ?_) hplain htag hdirty
    exact hquiet o e d (by simpa using hmem)
  | dirty hd hup => exact .dirty hd (hup.imp_right fun ⟨o, e, hmem⟩ => ⟨o, e, by simpa using hmem⟩)

/-- A key that may be set: a string is canonical, and its length fits. -/
structure GivenKey (C : List PbField → Prop) (type : PbType) (data : Option PbVal) : Prop where
  given : Given C type data
  short : type = .string → ∀ v, data = some v → v.str.length < 2 ^ 16

theorem GivenKey.canon {ktype : PbType} {kval : Option PbVal} (h : GivenKey MetasFirst ktype kval) (ht : ktype = .string) :
    Canon MetasFirst (KnvKey.init ktype kval).bytes := by
  cases kval with
  | none => exact canon_nil _
  | some v =>
    have hlen := h.short ht v rfl
    have hc := h.given ht v rfl
    subst ht
    rw [KnvKey.init, Nat.mod_eq_of_lt hlen, List.take_length]
    exact hc

theorem fine_setKey {ktype : PbType} {kval : Option PbVal} (hn : Sound pl n) (hm : pl.isMeta = false)
    (hk : (KnvKey.init ktype kval).bytes ≠ [] → n.noKey = false ∧ GivenKey MetasFirst ktype kval) :
    Fine pl n (n.setKey ktype kval pl) := by
  refine setKey_rule fun n' hn' o ho => ?_
  have hplaced : ∀ q : KnvNode, (Placed pl n → Placed pl q) → Placed pl n → Placed pl { q with noKey := false } :=
    fun q hq hp => ⟨fun h => absurd (hm.symm.trans h) Bool.false_ne_true, (hq hp).child⟩
  subst hn'
  rcases ho with ⟨hne, rfl⟩ | ⟨hnil, rfl⟩
  · obtain ⟨hno, hgiven⟩ := hk hne
    have htype := KnvKey.type_init ktype kval
    have hr : Rekey n 1 (KnvKey.init ktype kval) := .other rfl ⟨_, _, rfl⟩ fun ht => hgiven.canon (htype ▸ ht)
    have hg : Given MetasFirst ktype (some (KnvKey.init ktype kval).getValue) := by
      intro ht v hv
      cases hv
      have hc := hgiven.canon ht
      subst ht
      rw [KnvKey.getValue, htype]
      exact hc
    have hfine := fine_setMetaInner hn hr (by decide) hg
    have hno' : (setMetaInner 1 ktype (some (KnvKey.init ktype kval).getValue) true pl
        { n with key := KnvKey.init ktype kval }).node.noKey = false := (noKey_setMetaInner ..).trans hno
    generalize setMetaInner 1 ktype (some (KnvKey.init ktype kval).getValue) true pl
      { n with key := KnvKey.init ktype kval } = o at *
    refine ⟨fun e => ⟨hfine.cached, hfine.marked.around .., hfine.placed, hfine.valid⟩, ?_⟩
    have hsame : ({ o.node with noKey := false } : KnvNode) = o.node := by
      rw [← hno']
      generalize o.node = q
      obtain ⟨d, ms, cs⟩ := q
      rfl
    rw [hsame]
    exact ⟨hfine.cached, hfine.marked.around .., hfine.placed, hfine.valid⟩
  · have hfine := fine_innerRemoveMeta hn 1 (k := KnvKey.init ktype kval) (.inr ⟨rfl, hnil, _, _, rfl⟩)
    have hkey : (innerRemoveMeta 1 pl { n with key := KnvKey.init ktype kval }).node.key = KnvKey.init ktype kval := by
      refine innerRemoveMeta_rule (P := fun o => o.node.key = KnvKey.init ktype kval) (fun _ _ => rfl) fun _ _ n' hn' => ?_
      have hsame : n'.key = KnvKey.init ktype kval := hn' ▸ (expandSame ..).key
      exact ⟨fun _ => hsame, fun m _ => (touched_finish _ _).key.trans hsame⟩
    generalize innerRemoveMeta 1 pl { n with key := KnvKey.init ktype kval } = o at *
    have hbytes : o.node.key.bytes = [] := by
      rw [hkey]
      exact hnil
    have hhas : o.node.hasKey = false := by simp [hasKey, hbytes]
    obtain ⟨hc, hp⟩ := cached_of_no_key (b := false) hfine.cached (fun _ _ => hhas) hbytes hfine.cached.here.keyInit
    refine ⟨fun e => ⟨hfine.cached, hfine.marked.around .., hfine.placed, hfine.valid⟩, hc, ?_,
      hplaced _ hfine.placed, hfine.valid⟩
    refine Marked.around ?_ ..
    cases hfine.marked with
    | same hquiet hplain htag hdirty => exact .same hquiet (hp.trans hplain) htag hdirty
    | dirty hd hup => exact .dirty hd hup

/-! #### Tags and values -/

theorem cached_setTag (hn : Sound pl n) (t : UInt32) : All Cached (n.setTag t).node ∧
    Marked n (n.setTag t).node (n.setTag t).msgs ∧ (n.setTag t).node.isValid = true := by
  have h := hn.cached.here
  refine setTag_rule (P := fun o => All Cached o.node ∧ Marked n o.node o.msgs ∧ o.node.isValid = true)
    (fun _ => ⟨hn.cached, .refl not_update_nil, hn.seated.valid⟩) fun h0 _ sz hsz => ?_
  refine ⟨.mk ⟨⟨fun hs => ?_, h.keyInit, h.keyCanon, h.keyed, ⟨h.index.inj, h.index.old⟩, h.metas, h.children⟩,
    fun _ hcl => ?_, h.canon, fun hs hset => ?_, h.key, fun _ _ _ => rfl⟩ hn.cached.metas hn.cached.children,
    .dirty rfl (.inr ⟨sz - n.evalSz, sz - n.evalSz != 0, by simp [updateParent]⟩), bne_iff_ne.mpr h0⟩
  · have hs' : n.type = .string := hs
    show sz = (pbEvalLength t .string 0 n.evalValSz.toNat : ℤ)
    rw [hsz, if_pos hn.shaped.here.evaluated, if_pos hs', hs']
  · simp [isClean] at hcl
  · refine h.len hs ?_
    rcases hset with hset | ⟨-, hcl⟩
    · exact .inl hset
    · simp [isClean] at hcl

theorem fine_setTag {t : UInt32} (hn : Sound pl n) (ht : t ≠ 0 → if pl.isMeta then MetaTag t else ChildTag t) :
    Fine pl n (n.setTag t) := by
  obtain ⟨hcached, hmarked, hv⟩ := cached_setTag hn t
  refine ⟨hcached, hmarked, ?_, hv⟩
  refine setTag_rule (P := fun o => Placed pl n → Placed pl o.node) (fun _ => id) fun h0 _ sz _ hp => ?_
  have hnew := ht h0
  refine ⟨fun hm => ?_, fun hm => ?_⟩
  · rw [if_pos hm] at hnew
    exact ⟨hnew, (hp.isMeta hm).2⟩
  · rw [if_neg (by simp [hm])] at hnew
    exact hnew

theorem fine_setValueInt (hn : Sound pl n) (v : UInt64) : Fine pl n (n.setValueInt v) := by
  have h := hn.cached.here
  refine setValueInt_rule (fun _ => fine_same hn _) fun _ ht => ?_
  refine ⟨.mk ⟨⟨fun hs => absurd hs ht, h.keyInit, h.keyCanon, fun hs => absurd hs ht, ⟨h.index.inj, h.index.old⟩, h.metas,
    h.children⟩, fun _ hcl => ?_, fun hs => absurd hs ht, fun hs => absurd hs ht, fun _ _ hs => absurd hs ht,
    fun _ _ _ => rfl⟩ hn.cached.metas hn.cached.children, .dirty rfl (.inr ⟨_, _, List.mem_singleton_self _⟩),
    .of_same rfl rfl, hn.seated.valid⟩
  simp [isClean] at hcl

/-- The key after the test for an unchanged key is the old one, or one that `init` has made, or there is none. -/
theorem keyAfterTest_cases (n : KnvNode) (s : Bytes) :
    n.keyAfterTest s = n.key ∨ n.noKey = false ∧ ∃ t v, n.keyAfterTest s = KnvKey.init t v := by
  unfold keyAfterTest
  split
  · next htest =>
    refine .inr ⟨?_, ?_⟩
    · rw [Bool.and_eq_true] at htest
      have hhas := htest.2
      rw [hasKey, Bool.and_eq_true, Bool.not_eq_true'] at hhas
      exact hhas.1
    · split
      · split
        · exact ⟨_, _, rfl⟩
        · exact ⟨.string, none, rfl⟩
      · exact ⟨.string, none, rfl⟩
  · exact .inl rfl

theorem fine_setValueStr (hn : Sound pl n) {s : Bytes} (hs : Canon MetasFirst s) : Fine pl n (n.setValueStr s) := by
  have h := hn.cached.here
  refine setValueStr_rule (fun _ => fine_same hn _) fun _ ht k evs hk n' hn' u hu => ?_
  have hsz : 0 ≤ n.evalSz := hn.shaped.here.evaluated
  rw [if_pos hsz] at hu
  have htouch : Touched n' u.1 := hu ▸ touched_updateEvalSz ..
  have hval : u.1.val.str = s ∧ u.1.subnodeDirty = true ∧ u.1.evalValSz = s.length := by
    rw [hu]
    subst hn'
    unfold updateEvalSz
    split
    · next h0 => exact ⟨rfl, rfl, by simp only; omega⟩
    · exact ⟨rfl, rfl, by simp only; omega⟩
  obtain ⟨hval, hdirty, hlen⟩ := hval
  have hsize : SizeFits u.1 := by
    have h' : SizeFits n' := by
      subst hn'
      exact h.size
    exact hu ▸ h'.updateEvalSz _
  have hkey : (∃ t v, k = KnvKey.init t v) ∧ (k.type = .string → Canon MetasFirst k.bytes) ∧
      (n.noKey = false → k.bytes ≠ [] → k = KnvKey.ofBytes s) := by
    rcases hk with ⟨-, -, rfl, -⟩ | ⟨hnone, rfl, -⟩
    · exact ⟨ofBytes_eq_init s, canon_ofBytes hs, fun _ _ => rfl⟩
    · have hno : n.noKey = false → (n.keyAfterTest s).bytes ≠ [] → False := by
        rintro hno hne
        rcases hnone with h' | h'
        · rw [hno] at h'
          cases h'
        · exact hne h'
      refine ⟨?_, ?_, fun hno' hne => (hno hno' hne).elim⟩
      · rcases keyAfterTest_cases n s with hsame | ⟨-, hinit⟩
        · exact hsame ▸ h.keyInit
        · exact hinit
      · rcases keyAfterTest_cases n s with hsame | ⟨hno', -⟩
        · exact hsame ▸ h.keyCanon
        · intro _
          by_cases hne : (n.keyAfterTest s).bytes = []
          · rw [hne]
            exact canon_nil _
          · exact (hno hno' hne).elim
  have hmembers : n'.expanded = false ∧ n'.metalist = [] ∧ n'.childlist = [] ∧ n'.tag = n.tag ∧ n'.type = n.type ∧
      n'.noKey = n.noKey ∧ n'.key = k := by
    subst hn'
    exact ⟨rfl, rfl, rfl, rfl, rfl, rfl, rfl⟩
  obtain ⟨hexp, hms, hcs, htag, htype, hno, hk'⟩ := hmembers
  rw [← htouch.expanded] at hexp
  rw [← htouch.metalist] at hms
  rw [← htouch.childlist] at hcs
  rw [← htouch.tag] at htag
  rw [← htouch.noKey] at hno
  rw [← htouch.key] at hk'
  have hfold := isFolded_of_nil hms hcs
  refine ⟨.of_nil ⟨⟨hsize, hk' ▸ hkey.1, hk' ▸ hkey.2.1, fun _ he => ?_,
    ⟨fun hne => absurd hms hne, fun hne => absurd hms hne⟩,
    by simp [hms], by simp [hcs]⟩, fun hf => ?_, fun _ _ => hval ▸ hs, fun _ _ => hval ▸ hlen, fun _ hhas _ => ?_,
    by simp [hms, hcs]⟩ hms hcs, .dirty hdirty (.inr ⟨u.2, u.2 != 0, by simp [updateParent]⟩), .of_same htag hno, ?_⟩
  · rw [hexp] at he
    cases he
  · rw [hfold] at hf
    cases hf
  · rw [hasKey, Bool.and_eq_true, Bool.not_eq_true', bne_iff_ne, hk'] at hhas
    rw [hk', hval]
    exact hkey.2.2 (hno ▸ hhas.1) hhas.2
  · rw [isValid, htag]
    exact hn.seated.valid

theorem fine_getValueOp (hn : Sound pl n) (hfits : All Fits n) : Fine pl n n.getValueOp := by
  have h := hn.cached.here
  have heval : n.evaluateSize = n := evaluateSize_of_nonneg hn.shaped.here.evaluated
  refine getValueOp_rule (fun _ => fine_same hn _) (fun _ => heval.symm ▸ fine_same hn _) (fun _ _ => fine_same hn _)
    fun _ hd n' out hn' hout hlen => ?_
  rw [heval] at hn'
  subst hn'
  rw [Bool.or_eq_false_iff] at hd
  have ht := type_of_not_folded hd.1
  rw [(plain_serialize (hn.cached.imp fun _ h => h.honest) hn.shaped _ out).2 hout] at hlen ⊢
  have hplain : plainVal { n' with
      val := { str := n'.plainVal }, subnodeDirty := false, expanded := false, metalist := [], childlist := [] } =
      n'.plainVal := plainVal_of_folded (isFolded_of_not_expanded rfl)
  refine ⟨.of_nil ⟨⟨h.size, h.keyInit, h.keyCanon, fun _ he => (nomatch he),
    ⟨fun hne => absurd rfl hne, fun hne => absurd rfl hne⟩,
    fun m hm => absurd hm List.not_mem_nil, fun c hc => absurd hc List.not_mem_nil⟩, fun _ _ => hplain.symm,
    fun _ _ => canon_plainVal hn.cached hfits ht, fun _ _ => hlen, fun _ hhas _ =>
      ofBytes_plainVal h.toHeld.keyInit hd.1 hhas,
    fun x hx => absurd hx List.not_mem_nil⟩ rfl rfl, .same not_update_nil ?_ rfl (fun hd => nomatch hd), .of_same rfl rfl,
    hn.seated.valid⟩
  rw [plain, plain, hplain, fieldOf, fieldOf]
  split
  · rfl
  · next hne => exact absurd ht hne

end KnvNode

/-! ### Steps that keep to what the wire format can hold -/

open KnvNode

/-- A function at a path, on a node at its place, is given tags, values and trees that the wire format holds as they
are. -/
def Op.Tame (path : List Slot) (pl : Place) (n : KnvNode) : Op → Prop
  | insertChild child own _ => ChildTag child.tag ∧ (own = false → Copied child)
  | setTag t => t ≠ 0 → path ≠ [] → if pl.isMeta then MetaTag t else ChildTag t
  | setMeta tag type data =>
    tag ≠ 0 ∧ KnvNode.Given MetasFirst type data ∧ (tag = 1 → GivenKey MetasFirst type data) ∧
      -- a string over a meta that exists takes the buffer of the node, where the values below it may be
      (n.noKey = true ∨ tag ≠ 1 → type = .string → data ≠ none →
        (n.innerExpand pl.parentKeyed false).metaAt tag = none)
  | removeMeta tag => tag = 1 → pl.isMeta = false
  | setValueStr s _ => Canon MetasFirst s
  | getValue => All Fits n
  | _ => True

namespace KnvNode

/-- **A tame step hides nothing, and tells the parent.** At the root, the tag may become any other. -/
theorem fine_run {op : Op} {path : List Slot} (hn : Sound pl n) (hop : op.Given fun c => All Cached c ∧ Shaped c)
    (hok : op.Tame path pl n) (hno : pl.isMeta = true → n.noKey = true) (hung : path = [] → ∀ t, op ≠ .setTag t) :
    Fine pl n (op.run pl n) := by
  cases op with
  | lookup => exact fine_expandOp hn
  | insertChild child own atTail => exact fine_insertChild hn hop.1 hop.2 hok.1 hok.2 atTail
  | removeChild t k => exact fine_removeChild hn t k
  | removeChildrenByTag t => exact fine_removeChildrenByTag hn t
  | setTag t => exact fine_setTag hn fun h0 => hok h0 fun hpath => hung hpath t rfl
  | setMeta tag type data =>
    obtain ⟨h0, hgiven, hkey, -⟩ := hok
    refine setMeta_rule (P := Fine pl n) (fun hno' htag => ?_) fun hmeta => ?_
    · have hm : pl.isMeta = false := by
        by_contra hm
        rw [hno (by simpa using hm)] at hno'
        cases hno'
      exact fine_setKey hn hm fun _ => ⟨hno', hkey htag⟩
    · have hr : Rekey n tag n.key := .same rfl hmeta.symm
      have hfine := fine_setMetaInner hn hr h0 hgiven
      obtain ⟨d, ms, cs⟩ := n
      exact hfine
  | removeMeta tag =>
    refine removeMeta_rule (P := Fine pl n) (fun htag => fine_setKey hn (hok htag) fun hne => absurd rfl hne) fun htag => ?_
    have hfine := fine_innerRemoveMeta hn tag (k := n.key) (.inl ⟨rfl, htag⟩)
    obtain ⟨d, ms, cs⟩ := n
    exact hfine
  | setValueInt v => exact fine_setValueInt hn v
  | setValueStr s ownBuf => exact fine_setValueStr hn hok
  | getValue => exact fine_getValueOp hn hok

/-- A node is fit for the slot it is in. -/
theorem Held.placed {p c : KnvNode} {s : Slot} (h : Held p) (hc : p.slot s = some c) : Placed (p.place s) c := by
  cases s with
  | ofMeta i => exact ⟨fun _ => h.metas c (List.mem_of_getElem? hc), fun hm => nomatch hm⟩
  | ofChild i => exact ⟨fun hm => (nomatch hm), fun _ => h.children c (List.mem_of_getElem? hc)⟩

/-- **A tame step at any path hides nothing in the tree.** -/
theorem cached_runAt {root : KnvNode} {op : Op} {path : List Slot} {out : Out} (h : Sound {} root)
    (hop : op.Given fun c => All Cached c ∧ Shaped c)
    (hok : ∀ pl n, ctxAt hanging path {} root = some pl → nodeAt hanging path root = some n → op.Tame path pl n)
    (hrun : op.runAt path root = some out) : Sound {} out.node := by
  have hshape : op.Given Shaped := by
    cases op with
    | insertChild => exact hop.2
    | _ => trivial
  suffices hmain : All Cached out.node ∧ out.node.isValid = true from
    ⟨hmain.1, (shaped_runAt h.shaped hshape hrun).1, hmain.2, fun _ hpk => (by cases hpk)⟩
  cases path with
  | nil =>
    cases hrun
    have hok' := hok {} root rfl rfl
    cases op with
    | setTag t =>
      obtain ⟨hcached, -, hv⟩ := cached_setTag h t
      exact ⟨hcached, hv⟩
    | _ =>
      have hfine := fine_run h hop hok' (fun hm => by cases hm) (fun _ _ he => by cases he)
      exact ⟨hfine.cached, hfine.valid⟩
  | cons s₀ path₀ =>
    obtain ⟨c, o, hc, ho, rfl⟩ := editAt_cons hrun
    have hplaced := h.cached.here.toHeld.placed hc
    obtain ⟨⟨hc', -, hp'⟩, hself, hmarked⟩ := editAt_rule (H := hanging)
      (fun g n => All Cached n ∧ Shaped n ∧ Placed g n) (fun _ n n' msgs => n'.self = n.self ∧ Marked n n' msgs)
        (fun _ => True)
      (fun g p s c hp _ hc => ⟨All.slot hp.1 hc, All.slot hp.2.1 hc, hp.1.here.toHeld.placed hc⟩)
      (fun g p s c c' msgs hp _ hc hc' hlink => by
        obtain ⟨hpc, hps, hpp⟩ := hp
        obtain ⟨hself, hmarked⟩ := hlink
        obtain ⟨hcc, hcs, hcp⟩ := hc'
        rw [notify_setSlot hc]
        have ht := touched_handleAll c'.self msgs (p.setSlot s c')
        obtain ⟨hcached, hm⟩ := Cached.hear hpc hps.here hc hself hcc hcp hmarked
        have htag : ((p.setSlot s c').handleAll c'.self msgs).1.tag = p.tag := ht.tag.trans (by cases s <;> rfl)
        have hno : ((p.setSlot s c').handleAll c'.self msgs).1.noKey = p.noKey := ht.noKey.trans (by cases s <;> rfl)
        exact ⟨⟨hcached, (hps.setSlot hc hcs hself).touched ht, .of_same htag hno hpp⟩,
          ht.self.trans (by cases s <;> rfl), hm⟩)
      path₀ (root.place s₀) c o (fun _ _ => trivial) ⟨All.slot h.cached hc, All.slot h.shaped hc, hplaced⟩
      (fun g t hg ht hJ => by
        obtain ⟨htc, hts, htp⟩ := hJ
        have hok' := hok g t (by rw [ctxAt, show hanging.get root s₀ = some c from hc]; exact hg)
          (by rw [nodeAt, show hanging.get root s₀ = some c from hc]; exact ht)
        have hfine := fine_run ⟨htc, hts, htp.seated⟩ hop hok' (fun hm => (htp.isMeta hm).2) (fun he => by cases he)
        have hsh := shaped_run hts op hshape g
        exact ⟨⟨hfine.cached, hsh.1, hfine.placed htp⟩, hsh.2, hfine.marked⟩)
      ho
    rw [notify_setSlot hc]
    have ht := touched_handleAll o.node.self o.msgs (root.setSlot s₀ o.node)
    refine ⟨(Cached.hear h.cached h.shaped.here hc hself hc' hp' hmarked).1, ?_⟩
    rw [isValid, ht.tag]
    have hv := h.seated.valid
    cases s₀ <;> exact hv

end KnvNode

/-! ### Runs -/

/-- The trees of runs from canonical values, with fields that are `C` in every message, whose steps are all `Ok`. -/
inductive CanonRun (C : List PbField → Prop) (Ok : List Slot → Place → KnvNode → Op → Prop) : KnvNode → Prop
  /-- `New`, from the bytes of a field. -/
  | newFromBytes {f : PbField} {n : KnvNode} : f.Ok → f.norm = f → Canon C f.val.str →
      newFromBytes f.encode = .ok n → CanonRun C Ok n
  /-- `NewTree`, with or without key. -/
  | newTree {tag : UInt32} {key : Option KnvKey} {n : KnvNode} :
      (∀ k, key = some k → GivenKey C k.type (some k.getValue)) → newTree tag key = .ok n → CanonRun C Ok n
  /-- `New` without key, as `InsertIntLeaf` and `InsertStrLeaf` make a child. -/
  | newLeaf {tag : UInt32} {type : PbType} {val : Option PbVal} {n : KnvNode} : Given C type val →
      new tag type .string none val = .ok n → CanonRun C Ok n
  /-- A function on a node of the tree; what is inserted is a tree of such a run. -/
  | step {root : KnvNode} {op : Op} {path : List Slot} {out : Out} : CanonRun C Ok root →
      (∀ child own atTail, op = .insertChild child own atTail → CanonRun C Ok child) →
      (∀ pl n, ctxAt hanging path {} root = some pl → nodeAt hanging path root = some n → Ok path pl n op) →
      op.runAt path root = some out → CanonRun C Ok out.node

/-- A step at the root. -/
theorem CanonRun.atRoot {C : List PbField → Prop} {Ok : List Slot → Place → KnvNode → Op → Prop} {root : KnvNode}
    (h : CanonRun C Ok root) (op : Op) (hop : op.Given (CanonRun C Ok)) (hok : Ok [] {} root op) :
    CanonRun C Ok (op.run {} root).node := by
  refine @CanonRun.step C Ok root op [] (op.run {} root) h (fun child own atTail he => ?_) (fun pl n hpl hn => ?_) rfl
  · subst he
    exact hop
  · cases hpl
    cases hn
    exact hok

/-- What is cached in a node hides no update. -/
structure CacheHonest (n : KnvNode) : Prop where
  /-- What `Serialize` writes with the header is the plain encoding. -/
  serialize : ∀ len out, n.serialize len true = .ok out → out = n.plain
  /-- What it writes without the header is the plain encoding of the value. -/
  value : ∀ len out, n.serialize len false = .ok out → out = n.plainVal
  /-- What `Serialize` of a string writes, too. -/
  str : ∀ out, n.serializeStr = .ok out → out = n.plain
  /-- A clean node holds the encoding of its content. -/
  clean : n.isClean = true → n.val.str = n.plainVal
  /-- Over a dirty node, all are dirty. -/
  dirty : ∀ x ∈ n.metalist ++ n.childlist, x.subnodeDirty = true → n.subnodeDirty = true

namespace KnvNode

theorem cacheHonest {n : KnvNode} (h : All Cached n) (hs : Shaped n) : CacheHonest n := by
  have hplain := plain_serialize (h.imp fun _ h => h.honest) hs
  refine ⟨fun len out => (hplain len out).1, fun len out => (hplain len out).2, fun out hout => ?_, fun hcl => ?_,
    h.here.dirty⟩
  · unfold serializeStr at hout
    simp only at hout
    split at hout
    · cases hout
    · next out' hser =>
      split at hout
      · cases hout
      · cases hout
        exact (hplain _ _).1 hser
  · cases hf : n.isFolded with
    | true => exact (plainVal_of_folded hf).symm
    | false => exact h.here.clean hf hcl

/-- A new tree hides nothing. -/
theorem sound_newTree {tag : UInt32} {key : Option KnvKey} {n : KnvNode}
    (hkey : ∀ k, key = some k → GivenKey MetasFirst k.type (some k.getValue)) (h : newTree tag key = .ok n) :
    Sound {} n := by
  have hshape := shaped_newTree h
  obtain ⟨ht, k, hk, hn⟩ := newTree_cases h
  have hinit : ∃ t v, k = KnvKey.init t v := by
    rcases hk with rfl | ⟨kk, -, rfl⟩
    · exact ⟨.string, none, rfl⟩
    · exact ⟨_, _, rfl⟩
  have hcanon : k.type = .string → Canon MetasFirst k.bytes := by
    rcases hk with rfl | ⟨kk, rfl, rfl⟩
    · exact fun _ => canon_nil _
    · intro hty
      rw [KnvKey.type_init] at hty
      exact (hkey kk rfl).canon hty
  have hv : ∀ {m : KnvNode}, m.tag = tag → Seated {} m := fun hm => ⟨bne_iff_ne.mpr (hm ▸ ht), fun _ hpk => nomatch hpk⟩
  have hnew : All Cached (initNode tag .string none) :=
    .of_nil (cached_initNode _ _ _ _ _ (fun _ _ hv => nomatch hv) fun _ => .inl rfl) rfl rfl
  rcases hn with ⟨hnil, rfl⟩ | ⟨hne, rfl⟩
  · obtain ⟨hc, -⟩ := cached_of_no_key (b := false) hnew (fun _ _ => rfl) hnil hinit
    exact ⟨hc, hshape, hv rfl⟩
  · have hsound : Sound {} (initNode tag .string none) := ⟨hnew, shaped_initNode .., hv rfl⟩
    have hheld := held_addMetaNode hnew.here.toHeld
      (show MetaTag 1 from ⟨by decide, by decide⟩) (.other rfl hinit hcanon) k.type (some k.getValue)
    have hfine := fine_finish hsound hheld (fun m hm => ?_) (fun c hc => absurd hc List.not_mem_nil) rfl rfl rfl
      (metaSize 1 k.type (some k.getValue))
    · exact ⟨hfine.cached, hshape, hfine.valid, fun _ hpk => nomatch hpk⟩
    · have hm' : m ∈ [(initNode 1 k.type (some k.getValue) true 0 true).at' 0] := hm
      rw [List.mem_singleton.mp hm']
      refine All.cached_at' (.of_nil (cached_initNode _ _ _ _ _ (fun hty v hval => ?_) fun _ => .inl rfl) rfl rfl)
      cases hval
      rw [KnvKey.getValue, hty]
      exact hcanon hty

/-- In every state of a run of tame steps, no value hides anything. -/
theorem sound_of_run {root : KnvNode} (h : CanonRun MetasFirst Op.Tame root) : Sound {} root := by
  induction h with
  | @newFromBytes f n hok hnorm hcanon h =>
    rw [newFromBytes_encode hok hnorm] at h
    cases h
    have hval : (initNode f.tag f.type (some f.val)).val = f.val := pick_of_norm hnorm
    refine ⟨.of_nil (cached_initNode _ _ _ _ _ (fun _ v hv => ?_) fun ht => .inr ?_) rfl rfl, shaped_initNode ..,
      ⟨bne_iff_ne.mpr fun h0 => ?_, fun _ hpk => nomatch hpk⟩⟩
    · cases hv
      exact hcanon
    · rw [hval]
      obtain ⟨tag, type, val⟩ := f
      cases ht
      exact (pbEvalFieldLength_eq tag .string val).symm
    · have hpos := hok.1.1
      rw [show f.tag = 0 from h0] at hpos
      exact absurd hpos (by decide)
  | newTree hkey h => exact sound_newTree hkey h
  | newLeaf hgiven h =>
    obtain ⟨ht, ⟨-, rfl⟩ | ⟨k, hk, -⟩⟩ := new_cases h
    · exact ⟨.of_nil (cached_initNode _ _ _ _ _ hgiven fun _ => .inl rfl) rfl rfl, shaped_initNode ..,
        bne_iff_ne.mpr ht, fun _ hpk => nomatch hpk⟩
    · cases hk
  | @step _ op _ _ _ _ hok hrun ih ihc =>
    refine cached_runAt ih ?_ hok hrun
    cases op with
    | insertChild child own atTail =>
      have hc := ihc child own atTail rfl
      exact ⟨hc.cached, hc.shaped⟩
    | _ => trivial

/-- **The cached value never hides an update.** In every state of every run of tame steps from canonical values, and
for every node: what `Serialize` writes is what a plain encoder writes that looks at no cached value, a clean node
holds it already, and a dirty node has dirty parents. -/
theorem cache_of_run {root : KnvNode} (h : CanonRun MetasFirst Op.Tame root) : All CacheHonest root := by
  obtain ⟨hc, hs, -⟩ := sound_of_run h
  clear h
  induction root using induct with
  | h n hms hcs =>
    exact .mk (cacheHonest hc hs) (fun m hm => hms m hm (hc.metas m hm) (hs.metas m hm))
      fun c hx => hcs c hx (hc.children c hx) (hs.children c hx)

/-- Below a parsed message a child is inserted and gets another tag, and all is written. -/
theorem cache_of_run_setTag : ∃ root : KnvNode, root.serialize 100 true = .ok [0x62, 4, 0x58, 1, 0x68, 5] ∧
    All CacheHonest root := by
  have henc : PbField.encode ⟨12, .string, { str := [0x58, 1] }⟩ = [0x62, 2, 0x58, 1] := by decide
  obtain ⟨n, hn⟩ : ∃ n, newFromBytes [0x62, 2, 0x58, 1] = .ok n := ⟨_, rfl⟩
  obtain ⟨leaf, hleaf⟩ : ∃ c, new 11 .varint .string none (some { i64 := 5 }) = .ok c := ⟨_, rfl⟩
  have hcanon : Canon MetasFirst [0x58, 1] := by
    refine @Canon.message MetasFirst [⟨11, .varint, { i64 := 1 }⟩] ⟨⟨[], _, rfl, by simp, ?_⟩, ?_⟩ ?_ ?_
    all_goals
      intro f hf
      rw [List.mem_singleton.mp hf]
    · decide
    · exact fun _ => Nat.two_pow_pos 16
    · exact ⟨⟨by decide, Nat.two_pow_pos 64⟩, rfl⟩
    · exact canon_nil _
  have hparse : CanonRun MetasFirst Op.Tame n :=
    @CanonRun.newFromBytes MetasFirst Op.Tame ⟨12, .string, { str := [0x58, 1] }⟩ n
      ⟨⟨by decide, by decide⟩, show 2 < 2 ^ 64 by decide⟩ rfl hcanon (henc ▸ hn)
  have hchild : CanonRun MetasFirst Op.Tame leaf := .newLeaf (fun ht v _ => by cases ht) hleaf
  have hinsert : CanonRun MetasFirst Op.Tame ((Op.insertChild leaf true true).run {} n).node := by
    refine hparse.atRoot _ hchild ⟨?_, fun h => nomatch h⟩
    cases hleaf
    exact ⟨by decide, by decide⟩
  obtain ⟨out, hout⟩ : ∃ out, (Op.setTag 13).runAt [.ofChild 1] ((Op.insertChild leaf true true).run {} n).node =
    some out := by
    cases hn
    cases hleaf
    exact ⟨_, rfl⟩
  have hrun : CanonRun MetasFirst Op.Tame out.node := by
    refine @CanonRun.step MetasFirst Op.Tame _ (.setTag 13) [.ofChild 1] out hinsert (fun _ _ _ he => nomatch he)
      (fun pl c hpl _ _ _ => ?_) hout
    cases hn
    cases hleaf
    cases hpl
    exact ⟨by decide, by decide⟩
  refine ⟨out.node, ?_, cache_of_run hrun⟩
  cases hn
  cases hleaf
  cases hout
  decide +kernel

/-- A canonical message with a child before a meta: a lookup leaves it clean, but its content is written in the
other order. -/
theorem not_cache_of_run : ¬∀ root, CanonRun (fun _ => True) (fun _ _ _ _ => True) root → All CacheHonest root := by
  intro h
  have henc : PbField.encode ⟨12, .string, { str := [0x58, 1, 0x10, 5] }⟩ = [0x62, 4, 0x58, 1, 0x10, 5] := by decide
  obtain ⟨n, hn⟩ : ∃ n, newFromBytes [0x62, 4, 0x58, 1, 0x10, 5] = .ok n := ⟨_, rfl⟩
  have hcanon : Canon (fun _ => True) [0x58, 1, 0x10, 5] := by
    refine @Canon.message (fun _ => True) [⟨11, .varint, { i64 := 1 }⟩, ⟨2, .varint, { i64 := 5 }⟩] trivial
      (fun f hf => ?_) fun f hf => ?_
    all_goals
      have hf' : f = ⟨11, .varint, { i64 := 1 }⟩ ∨ f = ⟨2, .varint, { i64 := 5 }⟩ := by simpa using hf
    · rcases hf' with rfl | rfl
      · exact ⟨⟨by decide, Nat.two_pow_pos 64⟩, rfl⟩
      · exact ⟨⟨by decide, Nat.two_pow_pos 64⟩, rfl⟩
    · rcases hf' with rfl | rfl <;> exact canon_nil _
  have hparse : CanonRun (fun _ => True) (fun _ _ _ _ => True) n :=
    @CanonRun.newFromBytes (fun _ => True) (fun _ _ _ _ => True) ⟨12, .string, { str := [0x58, 1, 0x10, 5] }⟩ n
      ⟨⟨by decide, by decide⟩, show 4 < 2 ^ 64 by decide⟩ rfl hcanon (henc ▸ hn)
  have hclean := (h _ (hparse.atRoot .lookup trivial trivial)).here.clean
  cases hn
  revert hclean
  decide +kernel

end KnvNode

end KnvProto
