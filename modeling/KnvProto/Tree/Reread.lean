import KnvProto.Tree.Alike
import KnvProto.Tree.Fold

/-!
# Reading an encoding again

A tree with exact sizes that has to be written, `New` of what `Serialize` writes, and a first look into the new node: it
has the nodes for the fields that the tree is written as (`exists_reread`), its `metas[]` leads to the last meta of each
tag (`MetasLast`), and a number is read back as it was (`getIntVal_ofField`).

## The model

The key that a node writes itself comes first and is a meta for whoever reads it; the fields after it are those of the
metas and children, in their order (`WrittenAs`).
-/

namespace KnvProto

/-- Fields that can be read back are told apart by their encodings. -/
theorem encode_inj {f g : PbField} (hf : f.Ok) (hg : g.Ok) (hfn : f.norm = f) (hgn : g.norm = g)
    (h : f.encode = g.encode) : f = g := by
  have hbf := pbBegin_encode hf []
  have hbg := pbBegin_encode hg []
  rw [h, hbg, hfn, hgn, Option.some.injEq, Prod.mk.injEq] at hbf
  exact hbf.1.symm

namespace KnvNode

variable {n n' q q' x y m : KnvNode} {f g : PbField} {t u : UInt32} {pl : Place}

/-- A node is written as one field only. -/
theorem Wire.unique (h : Wire x f) (h' : Wire x g) (hf : f.Ok) (hg : g.Ok) : f = g := by
  have hser := (h.iff _ _).mpr ⟨Nat.le_refl _, rfl⟩
  exact encode_inj hf hg h.norm h'.norm ((h'.iff _ _).mp hser).2

/-! ### Numbers -/

/-- The last meta in the list with a tag. -/
def lastMeta (n : KnvNode) (t : UInt32) : Option KnvNode := (n.metalist.filter fun m => m.tag = t).getLast?

/-- `metas[]` leads to the last metas of their tags. -/
def MetasLast (n : KnvNode) : Prop := n.metalist ≠ [] → ∀ t, n.metas t = (n.lastMeta t).map (·.self)

theorem lastMeta_mem (h : n.lastMeta t = some m) : m ∈ n.metalist ∧ m.tag = t := by
  obtain ⟨hmem, htag⟩ := List.mem_filter.mp (List.mem_of_getLast? h)
  exact ⟨hmem, of_decide_eq_true htag⟩

theorem MetasLast.expandField (h : MetasLast n) (k : Bool) (p : PbField × ℕ) : MetasLast (expandField k n p) := by
  unfold KnvNode.expandField
  split
  swap
  · exact h
  · intro _ t
    simp only [lastMeta, List.filter_append, List.filter_cons, List.filter_nil]
    by_cases ht : t = p.1.tag
    · simp [ht, KnvNode.at']
    · have ht' : ¬p.1.tag = t := fun h => ht h.symm
      have hno : decide (((ofField p true).at' n.slots).tag = t) = false := decide_eq_false ht'
      rw [if_neg ht, hno, if_neg Bool.false_ne_true, List.append_nil]
      by_cases hnil : n.metalist = []
      · simp [hnil]
      · rw [if_neg (by simpa using hnil), h hnil t, lastMeta]

/-- What `metas[]` leads to is the last meta with the tag. -/
theorem MetasLast.metaAt (h : MetasLast n) (hs : Shape n) (t : UInt32) : n.metaAt t = n.lastMeta t := by
  unfold KnvNode.metaAt
  by_cases hnil : n.metalist = []
  · simp [hnil, lastMeta]
  · rw [if_neg (by simpa using hnil), h hnil t]
    cases hm : n.lastMeta t with
    | none => rfl
    | some m => exact find?_self (nodup_metas hs) (lastMeta_mem hm).1

/-! ### The new node -/

/-- The key is not among the metas whose tags are asked for. -/
theorem filter_metasAfterKey (b : Bool) (l : List KnvNode) {p : UInt32 → Bool} (hp : p 1 = false) :
    (metasAfterKey b l).filter (fun x => p x.tag) = l.filter fun x => p x.tag := by
  cases l with
  | nil => rfl
  | cons x l =>
    rw [metasAfterKey]
    split
    · next h =>
      have hone : x.tag = 1 := beq_iff_eq.mp (Bool.and_eq_true_iff.mp h).2
      rw [List.filter_cons, hone, hp, if_neg Bool.false_ne_true]
    · rfl

/-- The sizes of a node are `d` short of those of its key, its metas and its children. -/
structure AddsUp (d : ℤ) (n : KnvNode) : Prop where
  val : n.evalValSz + d =
    n.keyLength + ((metasAfterKey n.hasKey n.metalist).map (·.evalSz)).sum + (n.childlist.map (·.evalSz)).sum
  sz : n.evalSz = pbEvalLength n.tag .string 0 n.evalValSz.toNat

/-- A node that is written as its metas and children, and read back as them. -/
structure ReadBack (n : KnvNode) : Prop where
  /-- It is a message. -/
  type : n.type = .string
  /-- The wire holds a part of its tag. -/
  name : n.tag % 536870912 ≠ 0
  /-- `metas[]` leads to the last metas of their tags. -/
  metas : n.metalist ≠ [] → ∀ t a, n.metas t = some a → (n.lastMeta t).map (·.self) = some a
  /-- Metas have small tags. -/
  metaTags : ∀ m ∈ n.metalist, m.tag ≤ ucMaxMetaNum
  /-- The wire holds the tags of children. -/
  childTags : ∀ c ∈ n.childlist, ChildTag c.tag
  /-- Its sizes are exact. -/
  sizes : AddsUp 0 n
  /-- So are those below it. -/
  below : ∀ x ∈ n.metalist ++ n.childlist, All Accurate x

theorem metaAt_eq_some (h : n.metaAt t = some m) : n.metalist ≠ [] ∧ n.metas t = some m.self ∧ m ∈ n.metalist := by
  unfold metaAt at h
  split at h
  · cases h
  · next hne =>
    obtain ⟨a, ha, hm⟩ := Option.bind_eq_some_iff.mp h
    have hself := List.find?_some (show List.find? _ _ = some m from hm)
    exact ⟨by simpa using hne, ha.trans (congrArg some (of_decide_eq_true hself).symm), List.mem_of_find?_eq_some hm⟩

/-- A meta that is found is the last with its tag. -/
theorem ReadBack.metaAt (h : ReadBack q) (hs : Shape q) (hm : q.metaAt t = some m) : q.lastMeta t = some m := by
  obtain ⟨hne, hlead, hmem⟩ := metaAt_eq_some hm
  obtain ⟨x, hx, hself⟩ := Option.map_eq_some_iff.mp (h.metas hne t _ hlead)
  rw [hx, List.inj_on_of_nodup_map (nodup_metas hs) (lastMeta_mem hx).1 hmem hself]

/-- A meta is replaced by another at its address. -/
theorem metaAt_setMetaNode (n m' : KnvNode) (u : UInt32) :
    (n.setMetaNode m').metaAt u = (n.metaAt u).map fun x => if x.self = m'.self then m' else x := by
  have hsame : ∀ a, (fun c : KnvNode => decide (c.self = a)) ∘ (fun x : KnvNode => if x.self = m'.self then m' else x) =
      fun c : KnvNode => decide (c.self = a) := by
    intro a
    funext x
    simp only [Function.comp_apply]
    split
    · next hx => rw [hx]
    · rfl
  unfold KnvNode.metaAt
  simp only [setMetaNode, List.isEmpty_map]
  split
  · rfl
  · cases n.metas u with
    | none => rfl
    | some a =>
      simp only [Option.bind_some]
      rw [List.find?_map, hsame]

/-- A string or a number with nothing below it, and with exact sizes, is accurate. -/
theorem accurate_leaf (hv : n.isValid = true) (hms : n.metalist = []) (hcs : n.childlist = [])
    (hsz : n.evalSz = pbEvalFieldLength n.tag n.type n.val) (hval : n.type = .string → n.evalValSz = n.val.str.length) :
    All Accurate n := by
  refine .of_nil ⟨hv, fun _ => ⟨hsz, hval⟩, fun hf => ?_⟩ hms hcs
  rw [isFolded_of_nil hms hcs] at hf
  cases hf

/-- What `SetMeta` makes of a meta has nothing below it. -/
theorem accurate_overwrite (hm : m.tag = t) (hv : m.isValid = true) (hs : Shape m) (type : PbType) (data : Option PbVal)
    (k : Bool) : All Accurate (m.overwrite t type data k) := by
  rw [overwrite_eq]
  have hsz : metaSize t type data = pbEvalFieldLength m.tag type (metaVal type data) := by rw [hm, metaSize]
  have hval : type = .string → (if type = .string then ((metaVal type data).str.length : ℤ) else 0) =
    (metaVal type data).str.length :=
    fun ht => if_pos ht
  cases hexp : m.expanded with
  | true => exact accurate_leaf hv rfl rfl hsz fun ht => hval ht
  | false =>
    obtain ⟨hms, hcs⟩ := hs.folded hexp
    exact accurate_leaf hv hms hcs hsz fun ht => hval ht

/-- So has what `InitNode` makes. -/
theorem accurate_initNode (ht : t ≠ 0) (type : PbType) (value : Option PbVal) (k : Bool) (a : ℕ) :
    All Accurate ((initNode t type value true 0 k).at' a) := by
  refine accurate_leaf (bne_iff_ne.mpr ht) rfl rfl rfl fun htype => ?_
  have htype' : type = .string := htype
  subst htype'
  rfl

/-! #### Sizes -/

theorem keyLength_congr (hkey : n'.key = n.key) (hno : n'.noKey = n.noKey) :
    n'.keyLength = n.keyLength ∧ n'.hasKey = n.hasKey := by
  have hhas : n'.hasKey = n.hasKey := by rw [hasKey, hasKey, hkey, hno]
  exact ⟨by rw [keyLength, keyLength, hhas, hkey], hhas⟩

/-- A node whose list of metas or children has changed by `d` bytes. -/
theorem AddsUp.relist {d e : ℤ} (h : AddsUp e q) (hsz : q'.evalSz = q.evalSz) (hval : q'.evalValSz = q.evalValSz)
    (htag : q'.tag = q.tag) (hkey : q'.key = q.key) (hno : q'.noKey = q.noKey)
    (hsum : ((metasAfterKey q.hasKey q'.metalist).map (·.evalSz)).sum + (q'.childlist.map (·.evalSz)).sum =
      ((metasAfterKey q.hasKey q.metalist).map (·.evalSz)).sum + (q.childlist.map (·.evalSz)).sum + d) :
      AddsUp (e + d) q' := by
  obtain ⟨hlen, hhas⟩ := keyLength_congr hkey hno
  constructor
  · rw [hlen, hhas, hval]
    have := h.val
    omega
  · rw [hsz, hval, htag]
    exact h.sz

theorem AddsUp.updateEvalSz {d e : ℤ} (h : AddsUp (e + d) n) (ht : n.type = .string) : AddsUp e (n.updateEvalSz d).1 := by
  unfold KnvNode.updateEvalSz
  split
  · next hd =>
    rw [hd, Int.add_zero] at h
    exact h
  · constructor
    · show n.evalValSz + d + e = n.keyLength + ((metasAfterKey n.hasKey n.metalist).map (·.evalSz)).sum +
        (n.childlist.map (·.evalSz)).sum
      have hval := h.val
      omega
    · simp only [ht]
      rw [pbEvalLength_string n.tag _ 0]

theorem AddsUp.congr {e : ℤ} (h : AddsUp e n) (ht : Touched n n') (hsz : n'.evalSz = n.evalSz)
    (hval : n'.evalValSz = n.evalValSz) : AddsUp e n' := by
  obtain ⟨hlen, hhas⟩ := keyLength_congr ht.key ht.noKey
  exact ⟨by rw [hval, hlen, hhas, ht.metalist, ht.childlist]; exact h.val, by rw [hsz, hval, ht.tag]; exact h.sz⟩

/-- The end of a function makes the sizes right. -/
theorem AddsUp.finish {d : ℤ} (h : AddsUp d n) (ht : n.type = .string) (hev : 0 ≤ n.evalSz) :
    AddsUp 0 (n.finish d).node := by
  rw [← Int.zero_add d] at h
  have hn := h.updateEvalSz ht
  unfold KnvNode.finish
  rw [if_pos hev]
  exact hn.congr (touched_setValueDirty _) rfl rfl

/-- So does a parent that hears how much a child has grown. -/
theorem AddsUp.handle {d : ℤ} (h : AddsUp d n) (ht : n.type = .string) (hev : 0 ≤ n.evalSz) (a : ℕ) :
    AddsUp 0 (n.handle a (updateParent d)).1 ∧ (n.handle a (updateParent d)).1.subnodeDirty = true := by
  have hn : AddsUp 0 (n.turnEval d (d != 0)).1 := by
    unfold turnEval
    by_cases hd : d = 0
    · subst hd
      simpa using h
    · rw [← Int.zero_add d] at h
      simpa [hd, Int.not_lt.mpr hev] using h.updateEvalSz ht
  simp only [updateParent, handle_update, Bool.true_or, if_true]
  generalize (n.turnEval d (d != 0)).1 = x at hn
  unfold turnDirty
  rw [if_pos rfl]
  split
  · next hdirty => exact ⟨hn, hdirty⟩
  · exact ⟨hn.congr (touched_setValueDirty _) rfl rfl, rfl⟩

end KnvNode

end KnvProto
