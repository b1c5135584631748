import KnvProto.Tree.IntFields
import KnvProto.Tree.OwnRequest

/-!
# Nodes that have only been looked into

What lookups leave of a tree that was read from bytes (`looked_of_run`): every node has the value it was read with, and
a reader finds below it what is found in this value.

## The model

A reader sees a node through `Expand`, so two nodes are compared to any depth (`SameTo`). A node that has only been
looked into keeps its value, and is the same as the node that is made of it (`Looked`).
-/

namespace KnvProto

open PathEdit

namespace KnvNode

variable {n m l q c c' x y : KnvNode} {f g : PbField} {fs gs : List PbField} {t : UInt32} {v : UInt64} {pl : Place}
  {pk k : Bool} {d : ℕ}

/-! ### The same tree -/

/-- The value of a node that does not have to be written again. -/
def keptVal (n : KnvNode) : Option PbVal := if n.isFolded || n.isClean then some (n.val.norm n.type) else none

/-- Two nodes have the same tag, type and key, a value that is kept is the same, and what is below them is related by
`R`, in the same order. -/
structure SameHere (R : KnvNode → KnvNode → Prop) (pk : Bool) (n m : KnvNode) : Prop where
  tag : n.tag = m.tag
  type : n.type = m.type
  key : n.key = m.key
  val : ∀ v, n.keptVal = some v → m.keptVal = some v
  metas : List.Forall₂ R (n.innerExpand pk false).metalist (m.innerExpand pk false).metalist
  children : List.Forall₂ R (n.innerExpand pk false).childlist (m.innerExpand pk false).childlist

/-- Two nodes are the same for a reader who looks `d` levels deep, under parents that have a key or not. -/
def SameTo : ℕ → Bool → KnvNode → KnvNode → Prop
  | 0, _, _, _ => True
  | d + 1, pk, n, m => SameHere (SameTo d (n.key.bytes != [])) pk n m

/-- Two nodes are the same for every reader. -/
def SameTree (pk : Bool) (n m : KnvNode) : Prop := ∀ d, SameTo d pk n m

theorem SameTo.refl : ∀ (d : ℕ) (pk : Bool) (n : KnvNode), SameTo d pk n n := by
  intro d
  induction d with
  | zero => exact fun _ _ => trivial
  | succ d ih =>
    intro pk n
    exact ⟨rfl, rfl, rfl, fun _ h => h, List.forall₂_same.mpr fun x _ => ih _ x, List.forall₂_same.mpr fun x _ => ih _ x⟩

theorem SameTo.trans : ∀ {d : ℕ} {pk : Bool} {n m l : KnvNode}, SameTo d pk n m → SameTo d pk m l →
    SameTo d pk n l := by
  intro d
  induction d with
  | zero => exact fun _ _ => trivial
  | succ d ih =>
    intro pk n m l h h'
    have hkey : m.key = n.key := h.key.symm
    rw [SameTo, hkey] at h'
    have hlists : ∀ {as bs cs : List KnvNode}, List.Forall₂ (SameTo d (n.key.bytes != [])) as bs →
        List.Forall₂ (SameTo d (n.key.bytes != [])) bs cs → List.Forall₂ (SameTo d (n.key.bytes != [])) as cs :=
      forall₂_trans (R := SameTo d (n.key.bytes != [])) (S := SameTo d (n.key.bytes != [])) fun _ _ _ _ => ih
    exact ⟨h.tag.trans h'.tag, h.type.trans h'.type, h.key.trans h'.key, fun v hv => h'.val v (h.val v hv),
      hlists h.metas h'.metas, hlists h.children h'.children⟩

theorem SameTree.refl (pk : Bool) (n : KnvNode) : SameTree pk n n := fun d => .refl d pk n

theorem SameTree.trans (h : SameTree pk n m) (h' : SameTree pk m l) : SameTree pk n l := fun d => (h d).trans (h' d)

/-- A node that has been looked into is the same. -/
theorem sameTree_innerExpand (hval : (n.innerExpand pk false).keptVal = n.keptVal) :
    SameTree pk (n.innerExpand pk false) n := by
  intro d
  cases d with
  | zero => exact trivial
  | succ d =>
    have hsame := expandSame pk false n
    refine ⟨hsame.tag, hsame.type, hsame.key, fun v hv => hval ▸ hv, ?_, ?_⟩
    all_goals
      rw [innerExpand_of_expanded (innerExpand_expanded ..)]
      exact List.forall₂_same.mpr fun x _ => .refl _ _ x

/-! ### Nodes that are made of fields -/

/-- What is not a string has nothing below it. -/
theorem below_number (hms : n.metalist = []) (hcs : n.childlist = []) (ht : n.type ≠ .string) (pk : Bool) :
    (n.innerExpand pk false).metalist = [] ∧ (n.innerExpand pk false).childlist = [] := by
  refine innerExpand_rule (P := fun n' => n'.metalist = [] ∧ n'.childlist = []) (fun _ => ⟨hms, hcs⟩) fun n' _ hn' => ?_
  cases hn' with
  | leaf _ => exact ⟨rfl, rfl⟩
  | cut _ _ _ _ _ _ _ => exact ⟨rfl, rfl⟩
  | message _ _ _ hty _ _ _ => exact absurd hty ht

theorem keptVal_of_folded (h : n.isFolded = true) : n.keptVal = some (n.val.norm n.type) := by
  rw [keptVal, if_pos (by rw [h, Bool.true_or])]

theorem norm_pick (val : PbVal) (type : PbType) : (val.pick type).norm type = val.norm type := by cases type <;> rfl

theorem keptVal_ofField (f : PbField) (sz : ℕ) (k : Bool) (a : ℕ) :
    ((ofField (f, sz) k).at' a).keptVal = some f.norm.val := by
  rw [keptVal_of_folded (by rw [isFolded_at']; exact isFolded_initNode ..)]
  exact congrArg some (norm_pick f.val f.type)

/-- The nodes of a field and of what is read back of it are the same, whatever they have taken. -/
theorem sameTree_ofField (h : f.norm = g.norm) (pk k : Bool) (sz sz' a b : ℕ) :
    SameTree pk ((ofField (f, sz) k).at' a) ((ofField (g, sz') k).at' b) := by
  intro d
  cases d with
  | zero => exact trivial
  | succ d =>
    have htag : f.tag = g.tag := by
      have := congrArg PbField.tag h
      exact this
    have htype : f.type = g.type := by
      have := congrArg PbField.type h
      exact this
    have hkept : ∀ v, ((ofField (f, sz) k).at' a).keptVal = some v → ((ofField (g, sz') k).at' b).keptVal = some v := by
      intro v hv
      rw [keptVal_ofField, ← h, ← hv, keptVal_ofField]
    by_cases ht : f.type = .string
    · -- a string is the same, and so is what is found in it
      have hstr : f.val.str = g.val.str := by
        have hval := congrArg (fun f : PbField => f.val.str) h
        rw [PbField.norm, PbField.norm, ← htype, ht] at hval
        exact hval
      have hnode : (ofField (g, sz') k).at' b = { (ofField (f, sz) k).at' a with
          self := b
          key := ((ofField (f, sz) k).at' a).key
          evalSz := ((ofField (g, sz') k).at' b).evalSz } := by
        obtain ⟨tag, type, val⟩ := f
        obtain ⟨tag', type', val'⟩ := g
        simp only at htag htype ht hstr
        subst htag htype ht
        simp only [ofField, KnvNode.at', initNode, PbVal.pick_string, hstr]
      have hexp := innerExpand_relabel ((ofField (f, sz) k).at' a) b ((ofField (f, sz) k).at' a).key
        ((ofField (g, sz') k).at' b).evalSz pk false
      refine ⟨htag, htype, by rw [hnode], hkept, ?_, ?_⟩
      all_goals
        rw [hnode, hexp]
        exact List.forall₂_same.mpr fun x _ => .refl _ _ x
    · have hkey : ∀ {g : PbField} {sz b : ℕ}, g.type ≠ .string → ((ofField (g, sz) k).at' b).key = {} := by
        intro g sz b hg
        have hkey := key_initNode g.tag g.type (some g.val) sz k
        rw [if_neg fun hc => hg hc.1] at hkey
        exact hkey
      have hg : g.type ≠ .string := htype ▸ ht
      obtain ⟨hms, hcs⟩ := below_number (n := (ofField (f, sz) k).at' a) rfl rfl ht pk
      obtain ⟨hms', hcs'⟩ := below_number (n := (ofField (g, sz') k).at' b) rfl rfl hg pk
      refine ⟨htag, htype, (hkey ht).trans (hkey hg).symm, hkept, ?_, ?_⟩
      · rw [hms, hms']
        exact .nil
      · rw [hcs, hcs']
        exact .nil

/-! ### Nodes that have only been looked into -/

/-- What is known of such a node, which has no key at all if `k`. -/
structure Parsed (k : Bool) (n : KnvNode) : Prop where
  clean : n.subnodeDirty = false
  noKey : n.noKey = (k || n.type != .string)
  key : n.key = if n.noKey then {} else KnvKey.ofBytes n.val.str
  pos : 0 < n.evalSz
  len : n.type = .string → n.evalValSz = n.val.str.length
  folded : n.expanded = false → n.metalist = [] ∧ n.childlist = []
  number : n.type ≠ .string → n.metalist = [] ∧ n.childlist = []
  /-- What is below the node was found in its value. -/
  val : n.metalist ≠ [] ∨ n.childlist ≠ [] → n.val.str ≠ []
  metas : ∀ x ∈ n.metalist, x.tag ≤ ucMaxMetaNum
  children : ∀ x ∈ n.childlist, ¬x.tag ≤ ucMaxMetaNum
  lead : n.metalist ≠ [] → ∀ t a, n.metas t = some a → ∃ x ∈ n.metalist, x.self = a ∧ x.tag = t
  /-- The key was found in the first meta. -/
  first : n.key ≠ {} → n.metalist ≠ [] ∨ n.childlist ≠ [] →
    ∃ x xs, n.metalist = x :: xs ∧ x.tag = 1 ∧ n.key = KnvKey.init x.type (some x.val)

/-- A node that was read from bytes, under a parent that has a key or not, and that has only been looked into: it is the
same as the node that is made of its value. -/
inductive Looked : Bool → Bool → KnvNode → Prop
  | mk {pk k : Bool} {n : KnvNode} : Parsed k n → SameTree pk n (ofField (⟨n.tag, n.type, n.val⟩, 1) k) →
      (∀ x ∈ n.metalist, Looked (n.key.bytes != []) true x) → (∀ x ∈ n.childlist, Looked (n.key.bytes != []) false x) →
      Looked pk k n

theorem Looked.here (h : Looked pk k n) : Parsed k n := by
  cases h with
  | mk h _ _ _ => exact h

theorem Looked.same (h : Looked pk k n) : SameTree pk n (ofField (⟨n.tag, n.type, n.val⟩, 1) k) := by
  cases h with
  | mk _ h _ _ => exact h

theorem Looked.metas (h : Looked pk k n) : ∀ x ∈ n.metalist, Looked (n.key.bytes != []) true x := by
  cases h with
  | mk _ _ h _ => exact h

theorem Looked.children (h : Looked pk k n) : ∀ x ∈ n.childlist, Looked (n.key.bytes != []) false x := by
  cases h with
  | mk _ _ _ h => exact h

theorem Parsed.keptVal (h : Parsed k n) : n.keptVal = some (n.val.norm n.type) := by
  refine if_pos ?_
  by_cases hbelow : n.metalist ≠ [] ∨ n.childlist ≠ []
  · have hclean : n.isClean = true := by simp [isClean, isBufferValid, h.clean, h.val hbelow]
    rw [hclean, Bool.or_true]
  · rw [not_or, not_not, not_not] at hbelow
    rw [isFolded_of_nil hbelow.1 hbelow.2, Bool.true_or]

theorem Looked.noKey_eq (h : Looked pk k n) (ht : n.type = .string) : n.noKey = k := by
  rw [h.here.noKey, ht, bne_self_eq_false, Bool.or_false]

/-- The node of a field. -/
theorem looked_ofField (f : PbField) (sz : ℕ) (pk k : Bool) (a : ℕ) : Looked pk k ((ofField (f, sz) k).at' a) := by
  have hms : ((ofField (f, sz) k).at' a).metalist = [] := rfl
  have hcs : ((ofField (f, sz) k).at' a).childlist = [] := rfl
  have hpos : 0 < ((ofField (f, sz) k).at' a).evalSz := evalSz_initNode_pos f.tag f.type (some f.val) sz k
  refine .mk ⟨rfl, rfl, ?_, hpos, fun ht => ?_, fun _ => ⟨hms, hcs⟩, fun _ => ⟨hms, hcs⟩, ?_, ?_, ?_, ?_, ?_⟩ ?_ ?_ ?_
  · have hkey := key_initNode f.tag f.type (some f.val) sz k
    refine hkey.trans ?_
    have hno : ((ofField (f, sz) k).at' a).noKey = (k || f.type != .string) := rfl
    rw [hno]
    by_cases ht : f.type = .string
    · cases k with
      | true => simp
      | false =>
        by_cases hne : (initNode f.tag f.type (some f.val) true sz false).val.str = []
        · have hval : ((ofField (f, sz) false).at' a).val.str = [] := hne
          rw [if_neg fun hc => hc.2.1 hne, hval, KnvKey.ofBytes, pbBegin_nil, ite_self]
        · rw [if_pos ⟨ht, hne, rfl⟩, if_neg (by simp [ht])]
          rfl
    · rw [if_neg fun hc => ht hc.1, if_pos (by simp [ht])]
  case refine_2 =>
    have ht' : f.type = .string := ht
    simp only [ofField, initNode, KnvNode.at', ht', if_true]
  case refine_8 =>
    refine sameTree_ofField (g := ⟨f.tag, f.type, f.val.pick f.type⟩) ?_ pk k sz 1 a 0
    rw [PbField.norm, PbField.norm, norm_pick]
  all_goals simp [hms, hcs]

theorem init_pick (type : PbType) (val : PbVal) :
    KnvKey.init type (some (val.pick type)) = KnvKey.init type (some val) := by
  cases type <;> rfl

/-- The key that a value begins with is the first meta in it. -/
theorem first_of_ofBytes {s : Bytes} (hkey : KnvKey.ofBytes s ≠ {}) (k : Bool) (a : ℕ) :
    ∃ x xs, (parsed k a (pbScan s).1).filter (·.isMetaTag) = x :: xs ∧ x.tag = 1 ∧
      KnvKey.ofBytes s = KnvKey.init x.type (some x.val) := by
  rw [KnvKey.ofBytes, pbBegin] at hkey ⊢
  cases hd : pbDecodeTag s with
  | error e =>
    rw [hd] at hkey
    exact absurd rfl hkey
  | ok r =>
    obtain ⟨f, rest⟩ := r
    rw [hd] at hkey
    simp only [Except.toOption] at hkey ⊢
    by_cases htag : f.tag = 1
    swap
    · rw [if_neg htag] at hkey
      exact absurd rfl hkey
    have hone : (1 : UInt32) ≤ ucMaxMetaNum := by decide
    rw [pbScan_of_ok hd, parsed, List.filter_cons_of_pos (by simp [isMetaTag, KnvNode.at', htag, hone])]
    refine ⟨_, _, rfl, htag, ?_⟩
    rw [if_pos htag]
    exact (init_pick f.type f.val).symm

/-- A node stays one that has only been looked into when it is expanded. -/
theorem Looked.innerExpand (h : Looked pk k n) : Looked pk k (n.innerExpand pk false) := by
  cases hexp : n.expanded with
  | true =>
    rw [innerExpand_of_expanded hexp]
    exact h
  | false =>
    have hp := h.here
    have hsame := expandSame pk false n
    have hnumber := fun ht => below_number (hp.folded hexp).1 (hp.folded hexp).2 ht pk
    have hfill := metasFill_innerExpand hexp pk false
    have hexp' := innerExpand_expanded pk false n
    -- what the expansion finds is found in the value
    have hcases : (n.innerExpand pk false).subnodeDirty = false ∧
        ((n.innerExpand pk false).metalist ≠ [] ∨ (n.innerExpand pk false).childlist ≠ [] → n.val.str ≠ [] ∧
          (n.innerExpand pk false).metalist = (parsed false n.slots (pbScan n.val.str).1).filter (·.isMetaTag)) ∧
        ∀ x ∈ (n.innerExpand pk false).metalist ++ (n.innerExpand pk false).childlist,
          x ∈ parsed false n.slots (pbScan n.val.str).1 ∧
            (x ∈ (n.innerExpand pk false).metalist → x.isMetaTag = true) ∧
            (x ∈ (n.innerExpand pk false).childlist → x.isMetaTag = false) := by
      have hn' : Expanded pk false n (n.innerExpand pk false) := innerExpand_cases hexp
      generalize n.innerExpand pk false = n' at hn'
      cases hn' with
      | leaf _ => exact ⟨hp.clean, fun hne => absurd rfl (hne.elim id id), fun _ hx => absurd hx List.not_mem_nil⟩
      | cut _ _ _ _ _ _ _ => exact ⟨rfl, fun hne => absurd rfl (hne.elim id id), fun _ hx => absurd hx List.not_mem_nil⟩
      | message _ _ _ _ _ hb _ =>
        refine ⟨rfl, fun _ => ⟨fun hnil => ?_, rfl⟩, fun x hx => ⟨?_, fun hx => ?_, fun hx => ?_⟩⟩
        · rw [hnil, pbBegin_nil] at hb
          cases hb
        · rcases List.mem_append.mp hx with hx | hx
          · exact (List.mem_filter.mp hx).1
          · exact (List.mem_filter.mp hx).1
        · exact (List.mem_filter.mp hx).2
        · simpa using (List.mem_filter.mp hx).2
    obtain ⟨hclean, hval, hmem⟩ := hcases
    have hparsed : Parsed k (n.innerExpand pk false) := by
      refine ⟨hclean, ?_, ?_, ?_, fun ht => ?_, fun he => ?_, fun ht => hnumber (hsame.type ▸ ht), fun hne => ?_,
        fun x hx => ?_, fun x hx => ?_, hfill.leads, fun hkey hne => ?_⟩
      · rw [hsame.noKey, hsame.type]
        exact hp.noKey
      · rw [hsame.key, hsame.noKey, hsame.val]
        exact hp.key
      · rw [hsame.evalSz]
        exact hp.pos
      · rw [hsame.evalValSz, hsame.val]
        exact hp.len (hsame.type ▸ ht)
      · rw [hexp'] at he
        cases he
      · rw [hsame.val]
        exact (hval hne).1
      · exact of_decide_eq_true ((hmem x (List.mem_append_left _ hx)).2.1 hx)
      · exact of_decide_eq_false ((hmem x (List.mem_append_right _ hx)).2.2 hx)
      · rw [hsame.key] at hkey ⊢
        have hno : n.noKey = false := by
          by_contra hno
          rw [hp.key, if_pos (by simpa using hno)] at hkey
          exact hkey rfl
        have hof := hp.key
        rw [hno, if_neg Bool.false_ne_true] at hof
        rw [hof] at hkey ⊢
        rw [(hval hne).2]
        exact first_of_ofBytes hkey false n.slots
    have hbelow : ∀ {x : KnvNode} {b : Bool}, x ∈ parsed false n.slots (pbScan n.val.str).1 → x.isMetaTag = b → ∀ pk,
        Looked pk b x := by
      intro x b hx hb pk
      obtain ⟨p, _, a, rfl⟩ := mem_parsed hx
      have hb' : decide (p.1.tag ≤ ucMaxMetaNum) = b := hb
      rw [hb', Bool.or_false]
      exact looked_ofField p.1 p.2 pk b a
    refine .mk hparsed ?_ (fun x hx => ?_) fun x hx => ?_
    · have hsee := @sameTree_innerExpand _ pk (hparsed.keptVal.trans (by rw [hsame.val, hsame.type, hp.keptVal]))
      rw [hsame.tag, hsame.type, hsame.val]
      exact hsee.trans h.same
    · obtain ⟨hx', hmeta, -⟩ := hmem x (List.mem_append_left _ hx)
      exact hbelow hx' (hmeta hx) _
    · obtain ⟨hx', -, hchild⟩ := hmem x (List.mem_append_right _ hx)
      exact hbelow hx' (hchild hx) _

/-! ### Lookups -/

/-- What a lookup below leaves of a node: everything but what has been expanded. -/
structure Unchanged (pk : Bool) (n n' : KnvNode) : Prop where
  self : n'.self = n.self
  tag : n'.tag = n.tag
  type : n'.type = n.type
  val : n'.val = n.val
  key : n'.key = n.key
  evalSz : n'.evalSz = n.evalSz
  same : SameTree pk n' n

theorem Looked.unchanged (h : Looked pk k n) : Unchanged pk n (n.innerExpand pk false) := by
  have hsame := expandSame pk false n
  refine ⟨hsame.self, hsame.tag, hsame.type, hsame.val, hsame.key, hsame.evalSz, sameTree_innerExpand ?_⟩
  rw [h.innerExpand.here.keptVal, h.here.keptVal, hsame.val, hsame.type]

/-- A node with a node in a slot has been expanded, and is a string. -/
theorem Parsed.slot {s : Slot} (h : Parsed k n) (hc : n.slot s = some c) :
    n.expanded = true ∧ n.type = .string ∧ (n.metalist ≠ [] ∨ n.childlist ≠ []) := by
  have hne : n.metalist ≠ [] ∨ n.childlist ≠ [] := by
    cases s with
    | ofMeta i => exact .inl (List.ne_nil_of_mem (List.mem_of_getElem? hc))
    | ofChild i => exact .inr (List.ne_nil_of_mem (List.mem_of_getElem? hc))
  refine ⟨?_, ?_, hne⟩
  · by_contra he
    exact hne.elim (fun h' => h' (h.folded (by simpa using he)).1) fun h' => h' (h.folded (by simpa using he)).2
  · by_contra ht
    exact hne.elim (fun h' => h' (h.number ht).1) fun h' => h' (h.number ht).2

theorem Looked.slot {s : Slot} (h : Looked pk k n) (hc : n.slot s = some c) :
    Looked (n.place s).parentKeyed (n.place s).isMeta c := by
  cases s with
  | ofMeta i => exact h.metas c (List.mem_of_getElem? hc)
  | ofChild i => exact h.children c (List.mem_of_getElem? hc)

theorem Looked.setSlot {s : Slot} (h : Looked pk k n) (hc : n.slot s = some c)
    (hc' : Looked (n.place s).parentKeyed (n.place s).isMeta c') (hcc : Unchanged (n.place s).parentKeyed c c') :
    Looked pk k (n.setSlot s c') ∧ Unchanged pk n (n.setSlot s c') := by
  have hp := h.here
  obtain ⟨hexp, ht, hne⟩ := hp.slot hc
  have hsame : ∀ d, SameTo (d + 1) pk (n.setSlot s c') n := by
    intro d
    have hkept : ∀ v, (n.setSlot s c').keptVal = some v → n.keptVal = some v := by
      intro v hv
      have hval : (n.setSlot s c').val = n.val ∧ (n.setSlot s c').type = n.type := by cases s <;> exact ⟨rfl, rfl⟩
      rw [KnvNode.keptVal, hval.1, hval.2] at hv
      rw [hp.keptVal]
      split at hv
      · exact hv
      · cases hv
    have hset : ∀ {l : List KnvNode} {i : ℕ}, l[i]? = some c → SameTo d (n.key.bytes != []) c' c →
        List.Forall₂ (SameTo d (n.key.bytes != [])) (l.set i c') l := by
      intro l i hi hcc
      exact (forall₂_set (R := fun x y => SameTo d (n.key.bytes != []) y x) (fun x => .refl _ _ x) hcc hi).flip
    cases s with
    | ofMeta i =>
      refine ⟨rfl, rfl, rfl, hkept, ?_, ?_⟩
      all_goals
        rw [innerExpand_of_expanded hexp, innerExpand_of_expanded (n := n.setSlot (.ofMeta i) c') hexp]
      · exact hset hc (hcc.same d)
      · exact List.forall₂_same.mpr fun x _ => .refl _ _ x
    | ofChild i =>
      refine ⟨rfl, rfl, rfl, hkept, ?_, ?_⟩
      all_goals
        rw [innerExpand_of_expanded hexp, innerExpand_of_expanded (n := n.setSlot (.ofChild i) c') hexp]
      · exact List.forall₂_same.mpr fun x _ => .refl _ _ x
      · exact hset hc (hcc.same d)
  have hsame : SameTree pk (n.setSlot s c') n := fun d => by
    cases d with
    | zero => exact trivial
    | succ d => exact hsame d
  have hmem : ∀ {l : List KnvNode} {i : ℕ} {P : KnvNode → Prop}, (∀ x ∈ l, P x) → P c' → ∀ x ∈ l.set i c', P x :=
    fun hl hc' x hx => (List.mem_or_eq_of_mem_set hx).elim (hl x) fun he => he ▸ hc'
  cases s with
  | ofMeta i =>
    have hci : n.metalist[i]? = some c := hc
    have hcmem := List.mem_of_getElem? hci
    refine ⟨.mk ⟨hp.clean, hp.noKey, hp.key, hp.pos, hp.len, fun he => ?_, fun hty => absurd ht hty, fun _ => hp.val hne,
      hmem hp.metas (hcc.tag ▸ hp.metas c hcmem), hp.children, fun _ t a hta => ?_, fun hkey _ => ?_⟩
      (hsame.trans h.same) (hmem h.metas hc') h.children, ⟨rfl, rfl, rfl, rfl, rfl, rfl, hsame⟩⟩
    · exact absurd (hexp.symm.trans he) Bool.noConfusion
    · obtain ⟨x, hx, hself, htag⟩ := hp.lead (List.ne_nil_of_mem hcmem) t a hta
      obtain ⟨j, hj⟩ := List.getElem?_of_mem hx
      by_cases hij : i = j
      · subst hij
        obtain rfl : c = x := Option.some.inj (hci.symm.trans hj)
        exact ⟨c', List.mem_set (List.getElem?_eq_some_iff.mp hci).1 c', hcc.self.trans hself, hcc.tag.trans htag⟩
      · exact ⟨x, List.mem_of_getElem? (by rw [setSlot_ofMeta, List.getElem?_set_ne hij]; exact hj), hself, htag⟩
    · obtain ⟨x, xs, hlist, htag, hinit⟩ := hp.first hkey hne
      rw [setSlot_ofMeta, hlist]
      cases i with
      | zero =>
        obtain rfl : x = c := by
          rw [hlist] at hci
          exact Option.some.inj hci
        exact ⟨c', xs, rfl, hcc.tag.trans htag, by rw [hcc.type, hcc.val]; exact hinit⟩
      | succ i => exact ⟨x, _, rfl, htag, hinit⟩
  | ofChild i =>
    have hcmem := List.mem_of_getElem? (show n.childlist[i]? = some c from hc)
    refine ⟨.mk ⟨hp.clean, hp.noKey, hp.key, hp.pos, hp.len, fun he => ?_, fun hty => absurd ht hty, fun _ => hp.val hne,
      hp.metas, hmem hp.children (hcc.tag ▸ hp.children c hcmem), hp.lead, fun hkey _ => hp.first hkey hne⟩
      (hsame.trans h.same) h.metas (hmem h.children hc'), ⟨rfl, rfl, rfl, rfl, rfl, rfl, hsame⟩⟩
    exact absurd (hexp.symm.trans he) Bool.noConfusion

/-- A function that changes nothing but what has been expanded changes nothing else of the tree. -/
theorem looked_editAt {op : Place → KnvNode → Out} {path : List Slot} {out : Out} (h : Looked pl.parentKeyed pl.isMeta n)
    (hop : ∀ pl' t, ctxAt hanging path pl n = some pl' → nodeAt hanging path n = some t →
      Looked pl'.parentKeyed pl'.isMeta t → Looked pl'.parentKeyed pl'.isMeta (op pl' t).node ∧
        Unchanged pl'.parentKeyed t (op pl' t).node ∧ (op pl' t).msgs = [])
    (hout : editAt hanging op path pl n = some out) :
    Looked pl.parentKeyed pl.isMeta out.node ∧ Unchanged pl.parentKeyed n out.node ∧ out.msgs = [] := by
  refine editAt_rule (H := hanging) (fun pl n => Looked pl.parentKeyed pl.isMeta n)
    (fun pl n n' msgs => Unchanged pl.parentKeyed n n' ∧ msgs = []) (fun _ => True)
    (fun _ _ _ _ hn _ hc => hn.slot hc) ?_ path pl n out (fun _ _ => trivial) h hop hout
  rintro pl n s c c' msgs hn - hc hc' ⟨hcc, rfl⟩
  rw [notify_setSlot hc]
  obtain ⟨hset, hun⟩ := hn.setSlot hc hc' hcc
  exact ⟨hset, hun, rfl⟩

theorem looked_expandOp (h : Looked pl.parentKeyed pl.isMeta n) : Looked pl.parentKeyed pl.isMeta (n.expandOp pl).node ∧
    Unchanged pl.parentKeyed n (n.expandOp pl).node ∧ (n.expandOp pl).msgs = [] := by
  unfold expandOp expand
  by_cases hv : n.isValid = true
  · rw [if_pos hv]
    exact ⟨h.innerExpand, h.unchanged, rfl⟩
  · rw [if_neg hv]
    exact ⟨h, ⟨rfl, rfl, rfl, rfl, rfl, rfl, .refl _ _⟩, rfl⟩

/-- The trees that lookups make of a tree. -/
inductive LookedInto (root : KnvNode) : KnvNode → Prop
  | none : LookedInto root root
  | step {n : KnvNode} {path : List Slot} {out : Out} : LookedInto root n → Op.lookup.runAt path n = some out →
      LookedInto root out.node

/-- A tree that was read from bytes and looked into. -/
theorem looked_of_run {b : Bytes} {root : KnvNode} (hnew : newFromBytes b = .ok root) (h : LookedInto root n) :
    Looked false false n ∧ Shaped n := by
  induction h with
  | none =>
    unfold newFromBytes at hnew
    split at hnew
    · cases hnew
    · cases hnew
      exact ⟨looked_ofField _ _ false false 0, shaped_initNode ..⟩
  | step _ hout ih =>
    exact ⟨(@looked_editAt _ {} _ _ _ ih.1 (fun _ _ _ _ => looked_expandOp) hout).1,
      (@shaped_runAt _ .lookup _ _ ih.2 trivial hout).1⟩

end KnvNode

end KnvProto
