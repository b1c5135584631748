import KnvProto.Codec.Stream
import KnvProto.Node.SubTree
import KnvProto.Tree.Index
import KnvProto.Tree.Written

/-!
# What is read back of a tree

`Alike`: two nodes that say the same to a reader, to any depth, however much of
them has been expanded. A tree that is put together by insertions and the node
that is parsed from its encoding are alike (`alike_reread`).

The rest is about what a reader finds in a node that has just been expanded: its
metas by their tags and its children by theirs (`metaAt_of_unique`,
`findChildByTag_of_unique`).
-/

namespace KnvProto

namespace KnvNode

/-- Two nodes have the same tag, type, value and key, and their children are alike, in the same order. -/
inductive Alike : KnvNode → KnvNode → Prop
  | mk {n m : KnvNode} : n.toField = m.toField → n.key = m.key → List.Forall₂ Alike n.children m.children → Alike n m

/-! ### Leaves -/

/-- The children that a value is expanded to, with addresses from `a` on. -/
def valueChildren (s : Bytes) (a : ℕ) : List KnvNode :=
  if (pbBegin s).isSome ∧ (pbScan s).2 then (parsed false a (pbScan s).1).filter (!·.isMetaTag) else []

theorem valueChildren_none {s : Bytes} (h : pbBegin s = none) (a : ℕ) : valueChildren s a = [] := by
  rw [valueChildren, h]
  exact if_neg fun hb => nomatch hb.1

/-- A node with nothing below it yet: what can be found in it is in its value. -/
structure Leaf (n : KnvNode) : Prop where
  valid : n.isValid = true
  metalist : n.metalist = []
  childlist : n.childlist = []
  done : n.type = .string → n.expanded = true → pbBegin n.val.str = none

theorem children_number {n : KnvNode} (h : n.childlist = []) (ht : n.type ≠ .string) : n.children = [] := by
  unfold children
  split
  · refine innerExpand_rule (P := fun n' => n'.childlist = []) (fun _ => h) fun n' _ hn' => ?_
    cases hn' with
    | leaf _ => rfl
    | cut _ _ _ _ _ _ _ => rfl
    | message _ _ _ hty _ _ _ => exact absurd hty ht
  · rfl

theorem Leaf.children {n : KnvNode} (h : Leaf n) (ht : n.type = .string) : n.children = valueChildren n.val.str n.slots := by
  unfold KnvNode.children
  rw [if_pos h.valid]
  refine innerExpand_rule (P := fun n' => n'.childlist = _) (fun hexp => ?_) fun n' _ hn' => ?_
  · rw [valueChildren_none (h.done ht hexp), h.childlist]
  · cases hn' with
    | leaf hwhy =>
      have hnone : pbBegin n.val.str = none := (hwhy.resolve_left (not_not_intro ht)).resolve_left fun hk => nomatch hk.2
      exact (valueChildren_none hnone _).symm
    | cut _ _ _ _ _ hb heom => exact (if_neg fun hc => by rw [heom] at hc; exact nomatch hc.2).symm
    | message _ _ _ _ _ hb heom => exact (if_pos ⟨hb, heom⟩).symm

theorem leaf_initNode {tag : UInt32} (htag : tag ≠ 0) (type : PbType) (value : Option PbVal) (fieldSz : ℕ) (k : Bool)
    (a : ℕ) : Leaf ((initNode tag type value true fieldSz k).at' a) := by
  refine ⟨bne_iff_ne.mpr htag, rfl, rfl, fun ht hexp => ?_⟩
  have ht' : type = .string := ht
  subst ht'
  exact val_initNode tag value fieldSz k hexp

/-- The nodes for the same fields, at other addresses. -/
theorem forall₂_parsed {R : KnvNode → KnvNode → Prop} {fs : List (PbField × ℕ)} (h : ∀ p ∈ fs, ¬p.1.tag ≤ ucMaxMetaNum →
    ∀ k a b, R ((ofField p k).at' a) ((ofField p k).at' b)) :
    ∀ a b, List.Forall₂ R ((parsed false a fs).filter (!·.isMetaTag))
      ((parsed false b fs).filter (!·.isMetaTag)) := by
  induction fs with
  | nil => exact fun _ _ => .nil
  | cons p fs ih =>
    intro a b
    have ih := ih (fun q hq => h q (List.mem_cons_of_mem _ hq)) (a + 1) (b + 1)
    rw [parsed, parsed, List.filter_cons, List.filter_cons]
    by_cases htag : p.1.tag ≤ ucMaxMetaNum
    · simpa [isMetaTag, KnvNode.at', htag] using ih
    · have hp := h p (List.mem_cons_self ..) htag (decide (p.1.tag ≤ ucMaxMetaNum) || false) a b
      simpa [isMetaTag, KnvNode.at', htag] using And.intro hp ih

/-- What holds of all children of a value holds of the nodes of its fields that are children. -/
theorem mem_valueFields {s : Bytes} {p : PbField × ℕ} (h : p ∈ (pbScan s).1) (htag : ¬p.1.tag ≤ ucMaxMetaNum) :
    p.1.tag ≠ 0 ∧ p.1.val.str.length < s.length := by
  refine ⟨fun h0 => htag ?_, length_of_mem_pbScan h⟩
  rw [h0]
  decide

theorem plainVal_leaf {n : KnvNode} (h : Leaf n) : n.plainVal = n.val.str :=
  plainVal_of_folded (isFolded_of_nil h.metalist h.childlist)

/-- Leaves that say the same now say the same when they are looked into. -/
theorem alike_leaf : ∀ {N : ℕ} {n m : KnvNode}, n.val.str.length < N → Leaf n → Leaf m → n.toField = m.toField →
    n.key = m.key → Alike n m := by
  intro N
  induction N with
  | zero => exact fun h => absurd h (Nat.not_lt_zero _)
  | succ N ih =>
    intro n m hlen hn hm hfield hkey
    have htype : n.type = m.type := congrArg PbField.type hfield
    refine .mk hfield hkey ?_
    by_cases ht : n.type = .string
    swap
    · rw [children_number hn.childlist ht, children_number hm.childlist (htype ▸ ht)]
      exact .nil
    · have hval : n.val.str = m.val.str := by
        have hv := congrArg (fun f : PbField => f.val.str) hfield
        simpa only [val_toField, ht, htype ▸ ht, if_true, plainVal_leaf hn, plainVal_leaf hm] using hv
      rw [hn.children ht, hm.children (htype ▸ ht), ← hval, valueChildren, valueChildren]
      split
      swap
      · exact .nil
      · refine forall₂_parsed (fun p hp htag k a b => ?_) _ _
        obtain ⟨h0, hlt⟩ := mem_valueFields hp htag
        refine ih ?_ (leaf_initNode h0 ..) (leaf_initNode h0 ..) ?_ rfl
        · have hle : (p.1.val.pick p.1.type).str.length ≤ p.1.val.str.length := by
            rw [PbVal.pick]
            split <;> simp
          exact Nat.lt_of_le_of_lt hle (by omega)
        · rw [toField, toField, fieldOf, fieldOf, plainVal_at', plainVal_at']
          rfl

/-! ### What a reader finds -/

/-- `metas[]` leads to the only meta with a tag. -/
theorem metaAt_of_unique {n m : KnvNode} (hfill : MetasFill n) (hs : Shape n) (hm : m ∈ n.metalist)
    (huniq : ∀ x ∈ n.metalist, x.tag = m.tag → x = m) : n.metaAt m.tag = some m := by
  obtain ⟨a, ha⟩ := Option.ne_none_iff_exists'.mp (hfill.all m hm)
  obtain ⟨x, hx, hself, htag⟩ := hfill.leads (List.ne_nil_of_mem hm) _ _ ha
  have hxm := huniq x hx htag
  subst hxm
  have hne : n.metalist.isEmpty = false := by
    cases hl : n.metalist with
    | nil => rw [hl] at hm; exact absurd hm List.not_mem_nil
    | cons _ _ => rfl
  rw [metaAt, hne, if_neg Bool.false_ne_true, ha, Option.bind_some, ← hself]
  exact find?_self (nodup_metas hs) hx

theorem metaAt_of_none {n : KnvNode} (hfill : MetasFill n) {t : UInt32} (h : ∀ x ∈ n.metalist, x.tag ≠ t) :
    n.metaAt t = none := by
  by_contra hne
  obtain ⟨a, ha, m, hm, -⟩ := metaAt_ne_none_iff.mp hne
  obtain ⟨x, hx, -, htag⟩ := hfill.leads (List.ne_nil_of_mem hm) _ _ ha
  exact h x hx htag

/-- `child_has_key` tells of the children that have one. -/
def KeysSeen (n : KnvNode) : Prop := ∀ c ∈ n.childlist, c.key.bytes ≠ [] → n.childHasKey = true

theorem KeysSeen.expandField {n : KnvNode} (h : KeysSeen n) (k : Bool) (p : PbField × ℕ) : KeysSeen (expandField k n p) := by
  unfold KnvNode.expandField
  split
  · exact h
  · intro c hc hkey
    rcases List.mem_append.mp hc with hc | hc
    · exact Bool.or_eq_true_iff.mpr (.inr (h c hc hkey))
    · exact Bool.or_eq_true_iff.mpr (.inl (by rw [← List.mem_singleton.mp hc]; simpa using hkey))

theorem KeysSeen.foldl {n : KnvNode} (h : KeysSeen n) (k : Bool) (fs : List (PbField × ℕ)) :
    KeysSeen (fs.foldl (KnvNode.expandField k) n) := by
  induction fs generalizing n with
  | nil => exact h
  | cons p fs ih => exact ih (h.expandField k p)

theorem keysSeen_innerExpand {n : KnvNode} (hexp : n.expanded = false) (pk k : Bool) : KeysSeen (n.innerExpand pk k) := by
  have hnil : ∀ {m : KnvNode}, m.childlist = [] →
    KeysSeen m := fun h c hc => by rw [h] at hc; exact absurd hc List.not_mem_nil
  rw [innerExpand, if_neg (by simp [hexp])]
  simp only
  split
  · exact hnil rfl
  split
  · exact hnil rfl
  split
  · exact hnil rfl
  · have hseen := (hnil (m := { n with expanded := true, metalist := [], childlist := [], childHasKey := false }) rfl).foldl
      k (pbScan n.val.str).1
    split
    · exact hseen
    · exact hnil rfl

/-- `FindChildByTag` finds the only child with a tag. -/
theorem findChildByTag_of_unique {n c : KnvNode} (h : Indexed n) (hs : Shape n) (hseen : KeysSeen n)
    (hv : n.isValid = true) (hexp : n.expanded = true) (hc : c ∈ n.childlist)
    (huniq : ∀ x ∈ n.childlist, x.tag = c.tag → x = c) (pl : Place) : n.findChildByTag c.tag pl = (n, some c.self) := by
  have hlen : 0 < n.childlist.length := List.length_pos_of_mem hc
  have hnum : ¬n.childNum ≤ 0 := by
    rw [childNum, if_pos hexp]
    omega
  unfold findChildByTag
  rw [if_neg (by simp [hv]), innerExpand_of_expanded hexp]
  simp only [if_neg hnum]
  split
  · have hfind : n.childlist.find? (fun x => x.tag = c.tag) = some c := by
      cases hf : n.childlist.find? (fun x => x.tag = c.tag) with
      | none => exact absurd (List.find?_eq_none.mp hf c hc) (by simp)
      | some x => rw [huniq x (List.mem_of_find?_eq_some hf) (by simpa using List.find?_some hf)]
    rw [hfind]
    rfl
  · next hkey =>
    have hnd := hs.nodup_children
    have hnokey : c.key.bytes = [] := by
      by_contra hne
      exact hkey (hseen c hc hne)
    cases hget : n.ht.get n.look c.tag [] with
    | none =>
      have hnone := h.ht.get_eq_none_iff.mp hget c.self (List.mem_map.mpr ⟨c, hc, rfl⟩)
      rw [look_child hnd hc, hnokey] at hnone
      exact absurd rfl hnone
    | some a =>
      obtain ⟨ha, hlook⟩ := h.ht.of_get hget
      obtain ⟨x, hx, rfl⟩ := List.mem_map.mp ha
      rw [look_child hnd hx, Prod.mk.injEq] at hlook
      rw [huniq x hx hlook.1]

/-- `FindChildByTag` finds no child with another tag. -/
theorem findChildByTag_of_none {n : KnvNode} (h : Indexed n) (hs : Shape n) (hexp : n.expanded = true) {t : UInt32}
    (hnone : ∀ x ∈ n.childlist, x.tag ≠ t) (pl : Place) : n.findChildByTag t pl = (n, none) := by
  unfold findChildByTag
  split
  · rfl
  · rw [innerExpand_of_expanded hexp]
    simp only
    split
    · rfl
    split
    · have hfind : n.childlist.find? (fun x => x.tag = t) = none := by
        rw [List.find?_eq_none]
        exact fun x hx => by simpa using hnone x hx
      rw [hfind]
      rfl
    · cases hget : n.ht.get n.look t [] with
      | none => rfl
      | some a =>
        obtain ⟨ha, hlook⟩ := h.ht.of_get hget
        obtain ⟨x, hx, rfl⟩ := List.mem_map.mp ha
        rw [look_child hs.nodup_children hx, Prod.mk.injEq] at hlook
        exact absurd hlook.1 (hnone x hx)

/-- A lookup expands the node. -/
theorem findChildByTag_innerExpand (n : KnvNode) (tag : UInt32) :
    n.findChildByTag tag {} = if n.isValid then (n.innerExpand false false).findChildByTag tag {} else (n, none) := by
  have hv : (n.innerExpand false false).isValid = n.isValid := by rw [isValid, isValid, (expandSame false false n).tag]
  unfold findChildByTag
  rw [hv]
  cases n.isValid with
  | false => rfl
  | true =>
    simp only [Bool.not_true, Bool.false_eq_true, if_false, if_true]
    rw [innerExpand_of_expanded (innerExpand_expanded ..)]

/-- What can be relied on in a node that has just been expanded. -/
structure Readable (n : KnvNode) : Prop where
  valid : n.isValid = true
  expanded : n.expanded = true
  shape : Shape n
  indexed : Indexed n
  metas : MetasFill n
  keys : KeysSeen n

/-- A message that ends correctly can be read. -/
theorem readable_innerExpand {n : KnvNode} (hv : n.isValid = true) (hexp : n.expanded = false) (hs : Shape n) (h : Indexed n)
    (heom : (pbScan n.val.str).2 = true) (pk k : Bool) : Readable (n.innerExpand pk k) := by
  have hcut : ¬CutsChildren pk n := fun hc => Bool.false_ne_true (hc.2.2.2.2.2.1.symm.trans heom)
  refine ⟨?_, innerExpand_expanded .., hs.innerExpand pk k, h.innerExpand hs hcut k hv, metasFill_innerExpand hexp pk k,
    keysSeen_innerExpand hexp pk k⟩
  rw [isValid, (expandSame pk k n).tag]
  exact hv

/-! ### What a reader finds of fields -/

theorem map_tag_parsed (k : Bool) : ∀ (fs : List (PbField × ℕ)) (a : ℕ), (parsed k a fs).map (·.tag) = fs.map (·.1.tag) := by
  intro fs
  induction fs with
  | nil => exact fun _ => rfl
  | cons p fs ih => exact fun a => congrArg (p.1.tag :: ·) (ih (a + 1))

theorem mem_parsed_of_mem {k : Bool} {p : PbField × ℕ} : ∀ {fs : List (PbField × ℕ)} {a : ℕ}, p ∈ fs →
    ∃ b, (ofField p (p.1.tag ≤ ucMaxMetaNum || k)).at' b ∈ parsed k a fs := by
  intro fs
  induction fs with
  | nil => exact fun h => absurd h List.not_mem_nil
  | cons q fs ih =>
    intro a h
    rw [parsed]
    rcases List.mem_cons.mp h with rfl | h
    · exact ⟨a, List.mem_cons_self ..⟩
    · obtain ⟨b, hb⟩ := ih (a := a + 1) h
      exact ⟨b, List.mem_cons_of_mem _ hb⟩

/-- The fields that are read back of a list of nodes, no two with the same tag. -/
theorem eq_of_tag_parsed {k : Bool} {a : ℕ} {fs : List PbField} (hnd : (fs.map (·.tag)).Nodup) {x y : KnvNode}
    (hx : x ∈ parsed k a (fs.map sized)) (hy : y ∈ parsed k a (fs.map sized)) (h : x.tag = y.tag) : x = y := by
  refine List.inj_on_of_nodup_map (f := fun x : KnvNode => x.tag) ?_ hx hy h
  rw [map_tag_parsed, List.map_map]
  exact hnd

/-- A meta that is read back is found by its tag. -/
theorem metaAt_parsed {n : KnvNode} (h : Readable n) {fs : List PbField} {k : Bool} {a : ℕ}
    (hms : n.metalist = parsed k a (fs.map sized)) (hnd : (fs.map (·.tag)).Nodup) {f : PbField} (hf : f ∈ fs)
    (hn : f.norm = f) : ∃ m, n.metaAt f.tag = some m ∧ m.type = f.type ∧ m.val = f.val := by
  obtain ⟨b, hb⟩ := mem_parsed_of_mem (k := k) (a := a) (List.mem_map.mpr ⟨f, hf, rfl⟩)
  exact ⟨_, metaAt_of_unique h.metas h.shape (hms ▸ hb) fun x hx hxt => eq_of_tag_parsed hnd (hms ▸ hx) hb hxt, rfl,
    pick_of_norm hn⟩

theorem metaAt_parsed_none {n : KnvNode} (h : Readable n) {fs : List PbField} {k : Bool} {a : ℕ}
    (hms : n.metalist = parsed k a (fs.map sized)) {t : UInt32} (ht : ∀ f ∈ fs, f.tag ≠ t) : n.metaAt t = none := by
  refine metaAt_of_none h.metas fun x hx => ?_
  rw [hms] at hx
  obtain ⟨p, hp, b, rfl⟩ := mem_parsed hx
  obtain ⟨f, hf, rfl⟩ := List.mem_map.mp hp
  exact ht f hf

/-- A child that is read back is found by its tag. -/
theorem findChildByTag_parsed {n : KnvNode} (h : Readable n) {fs : List PbField} {k : Bool} {a : ℕ}
    (hcs : n.childlist = parsed k a (fs.map sized)) (hnd : (fs.map (·.tag)).Nodup) {f : PbField} (hf : f ∈ fs)
    (hn : f.norm = f) (pl : Place) :
    ∃ c ∈ n.childlist, n.findChildByTag f.tag pl = (n, some c.self) ∧ c.type = f.type ∧ c.val = f.val := by
  obtain ⟨b, hb⟩ := mem_parsed_of_mem (k := k) (a := a) (List.mem_map.mpr ⟨f, hf, rfl⟩)
  refine ⟨_, hcs ▸ hb, ?_, rfl, pick_of_norm hn⟩
  exact findChildByTag_of_unique h.indexed h.shape h.keys h.valid h.expanded (hcs ▸ hb)
    (fun x hx hxt => eq_of_tag_parsed hnd (hcs ▸ hx) hb hxt) pl

theorem findChildByTag_parsed_none {n : KnvNode} (h : Readable n) {fs : List PbField} {k : Bool} {a : ℕ}
    (hcs : n.childlist = parsed k a (fs.map sized)) {t : UInt32} (ht : ∀ f ∈ fs, f.tag ≠ t) (pl : Place) :
    n.findChildByTag t pl = (n, none) := by
  refine findChildByTag_of_none h.indexed h.shape h.expanded (fun x hx => ?_) pl
  rw [hcs] at hx
  obtain ⟨p, hp, b, rfl⟩ := mem_parsed hx
  obtain ⟨f, hf, rfl⟩ := List.mem_map.mp hp
  exact ht f hf

/-! ### Reading an encoding back -/

/-- The fields of metas, and of the key, and those of children. -/
theorem plainFields_split {n : KnvNode} (h : Written n) :
    ∃ ms, n.plainFields = ms ++ n.childlist.map toField ∧ (∀ f ∈ ms, f.tag ≤ ucMaxMetaNum) ∧
      ∀ f ∈ n.childlist.map toField, ¬f.tag ≤ ucMaxMetaNum := by
  refine ⟨_, rfl, fun f hf => ?_, fun f hf => ?_⟩
  · rcases List.mem_append.mp hf with hf | hf
    · split at hf
      · rw [List.mem_singleton.mp hf]
        exact (by decide : (1 : UInt32) ≤ ucMaxMetaNum)
      · exact absurd hf List.not_mem_nil
    · obtain ⟨x, hx, rfl⟩ := List.mem_map.mp hf
      exact (h.metas x (mem_afterKey hx)).2
  · obtain ⟨x, hx, rfl⟩ := List.mem_map.mp hf
    exact UInt32.not_le.mpr (h.children x hx).1.1

/-- What a node is written as is no longer than the whole. -/
theorem length_of_mem_plainFields {n : KnvNode} (hf : n.isFolded = false) {f : PbField} (h : f ∈ n.plainFields)
    (hn : f.norm = f) : f.val.str.length ≤ n.plainVal.length := by
  have hle : f.encode.length ≤ (encodeAll n.plainFields).length := by
    obtain ⟨s, t, hst⟩ := List.append_of_mem h
    rw [hst, encodeAll_append, encodeAll_cons, List.length_append, List.length_append]
    omega
  have hstr := length_norm_le f
  rw [hn] at hstr
  rw [plainVal_eq hf]
  exact Nat.le_trans hstr hle

theorem toField_at' (n : KnvNode) (a : ℕ) : (n.at' a).toField = n.toField := by
  rw [toField, toField, plainVal_at']
  rfl

theorem norm_of_mem_plainFields {n : KnvNode} {f : PbField} (h : f ∈ n.plainFields) : f.norm = f :=
  forall_plainFields (P := fun f => f.norm = f) (fun _ => norm_norm _) (fun _ _ => norm_norm _) (fun _ _ => norm_norm _) f h

/-- A child is no longer than the whole. -/
theorem length_child_le {n c : KnvNode} (hf : n.isFolded = false) (hc : c ∈ n.childlist) (ht : c.type = .string) :
    c.plainVal.length ≤ n.plainVal.length := by
  have hmem : c.toField ∈ n.plainFields := List.mem_append_right _ (List.mem_map.mpr ⟨c, hc, rfl⟩)
  have hle := length_of_mem_plainFields hf hmem (norm_of_mem_plainFields hmem)
  rwa [val_toField, if_pos ht] at hle

/-- The fields of an inner node that is not too long can be read back. -/
theorem ok_of_mem_plainFields {n : KnvNode} (h : Written n) (hf : n.isFolded = false) (hlen : n.plainVal.length < 2 ^ 64)
    {f : PbField} (hmem : f ∈ n.plainFields) : f.Ok := by
  refine ⟨?_, Nat.lt_of_le_of_lt (length_of_mem_plainFields hf hmem (norm_of_mem_plainFields hmem)) hlen⟩
  exact forall_plainFields (P := fun f => TagOk f.tag) (fun _ => (by decide : TagOk 1)) (fun x hx => (h.metas x hx).ok)
    (fun x hx => (h.children x hx).1.ok) f hmem

theorem plainFields_ne_nil {n : KnvNode} (hf : n.isFolded = false) : n.plainFields ≠ [] := by
  intro hnil
  rw [plainFields, List.append_eq_nil_iff, List.append_eq_nil_iff, List.map_eq_nil_iff, List.map_eq_nil_iff] at hnil
  obtain ⟨⟨hkey, hms⟩, hcs⟩ := hnil
  have hk : n.hasKey = false := by
    cases hk : n.hasKey with
    | false => rfl
    | true => rw [hk] at hkey; cases hkey
  have hms' : n.metalist = [] := by
    cases hl : n.metalist with
    | nil => rfl
    | cons m l => rw [hl, hk] at hms; cases hms
  rw [isFolded_of_nil hms' hcs] at hf
  cases hf

/-- The key of an inner node is the one its encoding begins with. -/
theorem ofBytes_written {n : KnvNode} (h : Written n) (hf : n.isFolded = false) (hlen : n.plainVal.length < 2 ^ 64) :
    KnvKey.ofBytes n.plainVal = n.key := by
  rcases h.innerKey hf with ⟨hkey, hms⟩ | ⟨hkey, hinit, -⟩
  · obtain ⟨f, fs, hcons⟩ := List.exists_cons_of_ne_nil (plainFields_ne_nil hf)
    have hmem : f ∈ n.plainFields := hcons ▸ List.mem_cons_self ..
    have hk : n.hasKey = false := by simp [hasKey, hkey]
    have htag : f.tag ≠ 1 :=
      forall_plainFields (P := fun f => f.tag ≠ 1) (fun hk' => absurd (hk.symm.trans hk') Bool.false_ne_true) hms
        (fun x hx => (h.children x hx).1.ne_one) f hmem
    rw [plainVal_eq hf, hcons, encodeAll_cons,
      ofBytes_encode (ok_of_mem_plainFields h hf hlen hmem) (norm_of_mem_plainFields hmem), if_neg htag, hkey]
  · have hk : n.hasKey = true := by
      rw [hasKey, (h.inner hf).2]
      simpa using hkey
    exact (ofBytes_plainVal hinit hf hk).symm

/-- The key of a string is the one its encoding begins with. -/
theorem ofBytes_plainVal_written {n : KnvNode} (h : Assembly n) (ht : n.type = .string) (hlen : n.plainVal.length < 2 ^ 64) :
    KnvKey.ofBytes n.plainVal = n.key := by
  cases hf : n.isFolded with
  | true => rw [plainVal_of_folded hf, h.written.here.leafKey ht hf (h.keyed ht)]
  | false => exact ofBytes_written h.written.here hf hlen

/-- The node that is parsed from a field says the field. -/
theorem toField_ofField {f : PbField} (hn : f.norm = f) (sz : ℕ) (k : Bool) (a : ℕ) :
    ((ofField (f, sz) k).at' a).toField = f := by
  have hval : (ofField (f, sz) k).val = f.val := pick_of_norm hn
  have hfold : (ofField (f, sz) k).isFolded = true := isFolded_initNode ..
  have hplain : (ofField (f, sz) k).plainVal = f.val.str := by rw [plainVal_of_folded hfold, hval]
  have hfield : ((ofField (f, sz) k).at' a).fieldOf f.val.str =
      ⟨f.tag, f.type, if f.type = .string then { str := f.val.str } else f.val⟩ := by
    rw [← hval]
    rfl
  rw [toField, plainVal_at', hplain, hfield]
  conv_rhs => rw [← hn]
  obtain ⟨tag, type, val⟩ := f
  cases type <;> rfl

/-- The node that is parsed from a field. -/
def reread (n : KnvNode) (sz a : ℕ) : KnvNode := (ofField (n.toField, sz) false).at' a

theorem tag_ne_zero {n : KnvNode} (h : Written n) : n.tag ≠ 0 := by
  intro h0
  have hpos := h.tag.1
  rw [h0] at hpos
  exact absurd hpos (by decide)

theorem key_reread {n : KnvNode} (h : Assembly n) (hlen : n.type = .string → n.plainVal.length < 2 ^ 64) (sz a : ℕ) :
    (n.reread sz a).key = n.key := by
  have hkey : (n.reread sz a).key = _ := key_initNode n.toField.tag n.toField.type (some n.toField.val) sz false
  by_cases ht : n.type = .string
  · have hval : (initNode n.toField.tag n.toField.type (some n.toField.val) true sz false).val.str = n.plainVal := by
      rw [show (initNode n.toField.tag n.toField.type (some n.toField.val) true sz false).val = n.toField.val from
        pick_of_norm (norm_norm _), val_toField, if_pos ht]
    rw [hkey, hval, ← ofBytes_plainVal_written h ht (hlen ht)]
    split
    · rfl
    · next hcond =>
      have hnil : n.plainVal = [] := by
        by_contra hne
        exact hcond ⟨ht, hne, rfl⟩
      rw [hnil, KnvKey.ofBytes, pbBegin_nil]
  · rw [hkey, if_neg fun hc => ht hc.1, (h.written.here.number ht).1]

/-- A folded node is a leaf. -/
theorem leaf_of_folded {n : KnvNode} (h : Assembly n) (hf : n.isFolded = true) : Leaf n := by
  have hn := h.written.here
  have hlists : n.metalist = [] ∧ n.childlist = [] := by
    by_cases ht : n.type = .string
    · cases hexp : n.expanded with
      | false => exact h.shaped.here.folded hexp
      | true =>
        simp only [isFolded, ht, hexp, bne_self_eq_false, Bool.not_true, Bool.false_or, Bool.and_eq_true,
          List.isEmpty_iff] at hf
        exact ⟨hf.2, hf.1⟩
    · exact (hn.number ht).2
  exact ⟨bne_iff_ne.mpr (tag_ne_zero hn), hlists.1, hlists.2, fun ht hexp => hn.leaf ht hf hexp⟩

/-- What is below a node whose value is written from fields, metas first, when it is expanded. -/
theorem innerExpand_fields {n : KnvNode} (h : Leaf n) (ht : n.type = .string) (hs : Shape n) (hx : Indexed n)
    {ms cs : List PbField} (hval : n.val.str = encodeAll (ms ++ cs)) (hne : ms ++ cs ≠ [])
    (hok : ∀ f ∈ ms ++ cs, f.Ok ∧ f.norm = f) (hms : ∀ f ∈ ms, f.tag ≤ ucMaxMetaNum)
    (hcs : ∀ f ∈ cs, ¬f.tag ≤ ucMaxMetaNum) (pk : Bool) (hplace : ¬(n.tag = 1 ∧ pk = true)) :
    n.expanded = false ∧ Readable (n.innerExpand pk false) ∧
      (n.innerExpand pk false).metalist = parsed false n.slots (ms.map sized) ∧
      (n.innerExpand pk false).childlist = parsed false (n.slots + ms.length) (cs.map sized) := by
  obtain ⟨hscan, hmetas, hchildren⟩ := scan_of_metasFirst (k := false) rfl hok hms hcs n.slots
  have hbegin : (pbBegin n.val.str).isSome := by
    obtain ⟨f, fs, hcons⟩ := List.exists_cons_of_ne_nil hne
    rw [hval, hcons, encodeAll_cons, pbBegin_encode (hok f (hcons ▸ List.mem_cons_self ..)).1]
    rfl
  have hexp : n.expanded = false := by
    by_contra hexp
    rw [h.done ht (by simpa using hexp)] at hbegin
    cases hbegin
  have heom : (pbScan n.val.str).2 = true := by rw [hval, hscan]
  refine ⟨hexp, readable_innerExpand h.valid hexp hs hx heom pk false, ?_⟩
  have hn' : Expanded pk false n (n.innerExpand pk false) := innerExpand_cases hexp
  generalize n.innerExpand pk false = m at hn'
  cases hn' with
  | leaf hwhy =>
    rcases hwhy with hwhy | hwhy | hwhy
    · exact absurd ht hwhy
    · exact absurd hwhy hplace
    · rw [hwhy] at hbegin
      cases hbegin
  | cut _ _ _ _ _ _ heom' =>
    rw [heom] at heom'
    cases heom'
  | message _ _ _ _ _ _ _ =>
    simp only [hval, hscan]
    exact ⟨hmetas, hchildren⟩

/-- What is below the node that is parsed from the encoding of an inner node, when it is expanded. -/
theorem innerExpand_reread {n : KnvNode} (h : Written n) (hf : n.isFolded = false) (hlen : n.plainVal.length < 2 ^ 64)
    (htag : n.tag ≠ 1) (sz a : ℕ) (pk : Bool) : ∃ ms, n.plainFields = ms ++ n.childlist.map toField ∧
      Readable ((n.reread sz a).innerExpand pk false) ∧
      ((n.reread sz a).innerExpand pk false).metalist = parsed false 0 (ms.map sized) ∧
      ((n.reread sz a).innerExpand pk false).childlist =
      parsed false ms.length (n.childlist.map fun c => sized c.toField) := by
  have ht := type_of_not_folded hf
  obtain ⟨ms, hsplit, hms, hcs⟩ := plainFields_split h
  have hok : ∀ f ∈ n.plainFields, f.Ok ∧ f.norm = f := fun f hmem =>
    ⟨ok_of_mem_plainFields h hf hlen hmem, norm_of_mem_plainFields hmem⟩
  have hval : (n.reread sz a).val.str = encodeAll n.plainFields := by
    rw [← plainVal_eq hf]
    have hstr := val_toField n
    rw [if_pos ht] at hstr
    rw [← hstr]
    show (PbVal.pick n.type n.toField.val).str = _
    rw [ht]
    rfl
  obtain ⟨-, hread, hmetas, hchildren⟩ := innerExpand_fields (n := n.reread sz a) (leaf_initNode (tag_ne_zero h) ..)
    ht (shape_at'.mpr (shape_initNode ..)) (indexed_at'.mpr (indexed_initNode ..)) (hsplit ▸ hval)
    (hsplit ▸ plainFields_ne_nil hf) (hsplit ▸ hok) hms hcs pk fun hk => htag hk.1
  refine ⟨ms, hsplit, hread, hmetas, ?_⟩
  have hslots : (n.reread sz a).slots = 0 := rfl
  rw [hchildren, hslots, Nat.zero_add, List.map_map]
  rfl

theorem forall₂_reread {l : List KnvNode} : ∀ b, (∀ c ∈ l, ∀ sz a, Alike c (c.reread sz a)) → (∀ c ∈ l, ChildTag c.tag) →
    List.Forall₂ Alike l (parsed false b (l.map fun c => sized c.toField)) := by
  induction l with
  | nil => exact fun _ _ _ => .nil
  | cons c l ih =>
    intro b hc htag
    rw [List.map_cons, parsed]
    have hnot : ¬c.tag ≤ ucMaxMetaNum := UInt32.not_le.mpr (htag c (List.mem_cons_self ..)).1
    have hforce : (decide ((sized c.toField).1.tag ≤ ucMaxMetaNum) || false) = false := by
      rw [Bool.or_false]
      exact decide_eq_false hnot
    rw [hforce]
    exact .cons (hc c (List.mem_cons_self ..) _ _) (ih _ (fun d hd => hc d (List.mem_cons_of_mem _ hd))
      fun d hd => htag d (List.mem_cons_of_mem _ hd))

/-- **A tree that is put together is read back**: the node that is parsed from its encoding is like it. -/
theorem alike_reread {n : KnvNode} (h : Assembly n) (htag : n.tag ≠ 1)
    (hlen : n.type = .string → n.plainVal.length < 2 ^ 64) : ∀ sz a, Alike n (n.reread sz a) := by
  induction n using induct with
  | h n _ hcs =>
    intro sz a
    have hn := h.written.here
    have hvalid := tag_ne_zero hn
    have hfield : n.toField = (n.reread sz a).toField := (toField_ofField (norm_norm _) sz false a).symm
    have hkey : n.key = (n.reread sz a).key := (key_reread h hlen sz a).symm
    cases hf : n.isFolded with
    | true => exact alike_leaf (Nat.lt_succ_self _) (leaf_of_folded h hf) (leaf_initNode hvalid ..) hfield hkey
    | false =>
      have ht := type_of_not_folded hf
      obtain ⟨ms, -, hread, -, hb⟩ := innerExpand_reread hn hf (hlen ht) htag sz a false
      refine .mk hfield hkey ?_
      rw [children, children, if_pos (show n.isValid = true from bne_iff_ne.mpr hvalid),
        if_pos (show (n.reread sz a).isValid = true from bne_iff_ne.mpr hvalid),
        innerExpand_of_expanded (expanded_of_not_folded hf), hb]
      refine forall₂_reread _
        (fun c hc => hcs c hc (h.child hc) (hn.children c hc).1.ne_one fun htc => ?_)
        fun c hc => (hn.children c hc).1
      exact Nat.lt_of_le_of_lt (length_child_le hf hc htc) (hlen ht)

end KnvNode

end KnvProto
