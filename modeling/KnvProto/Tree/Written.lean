import KnvProto.Tree.Marked
import KnvProto.Tree.Sizes

/-!
# Trees put together by insertions

What `NewTree`, `New` and the insertion of children make, whatever the sizes say
and however deep they insert: a leaf says its value, and an inner node is written
from its key, its metas and its children.

## The model

`Written` is what holds of every node of such a tree. A node that is being changed
is short of a fitting size, and may still have its value; `Unfinished` is what holds of
it until `finish` mends both (`written_finish`). Whatever a node tells its parent
leaves the parent as it should be (`Written.hear`).

`serialize_written`: what is written of such a tree, if anything, is the plain
encoding.
-/

namespace KnvProto

open PathEdit

namespace KnvNode

/-- The key of an inner node: there is none, or it is the first meta. -/
def KeyFirst (n : KnvNode) : Prop :=
  (n.key = {} ∧ ∀ m ∈ n.metalist, m.tag ≠ 1) ∨
    (n.key.bytes ≠ [] ∧ (∃ t v, n.key = KnvKey.init t v) ∧ ∃ m ms, n.metalist = m :: ms ∧ m.tag = 1)

/-- The tags of what is below a node. A string among the children may have a key. -/
structure Tagged (n : KnvNode) : Prop where
  metas : ∀ m ∈ n.metalist, MetaTag m.tag
  children : ∀ c ∈ n.childlist, ChildTag c.tag ∧ (c.type = .string → c.noKey = false)

/-- What holds of every node of a tree that is put together by insertions. -/
structure Written (n : KnvNode) : Prop extends Tagged n where
  tag : TagOk n.tag
  pos : 0 < n.evalSz
  size : n.isFolded = false → SizeFits n
  /-- A number has no key and nothing below it. -/
  number : n.type ≠ .string → n.key = {} ∧ n.metalist = [] ∧ n.childlist = []
  /-- A string that has been looked into in vain is no message. -/
  leaf : n.type = .string → n.isFolded = true → n.expanded = true → pbBegin n.val.str = none
  /-- The key of a leaf is in its value. -/
  leafKey : n.type = .string → n.isFolded = true → n.noKey = false → n.key = KnvKey.ofBytes n.val.str
  /-- An inner node keeps no value. -/
  inner : n.isFolded = false → n.val.str = [] ∧ n.noKey = false
  innerKey : n.isFolded = false → KeyFirst n

/-- What holds of a node that is being changed. -/
structure Unfinished (n : KnvNode) : Prop extends Tagged n where
  tag : TagOk n.tag
  pos : 0 < n.evalSz
  type : n.type = .string
  noKey : n.noKey = false
  expanded : n.expanded = true
  key : KeyFirst n

/-- What a tree that is put together by insertions is, wherever it hangs. -/
structure Assembly (n : KnvNode) : Prop where
  written : All Written n
  shaped : Shaped n
  /-- A string may have a key. -/
  keyed : n.type = .string → n.noKey = false

/-! ### New nodes -/

theorem val_initNode (tag : UInt32) (value : Option PbVal) (fieldSz : ℕ) (forceNoKey : Bool)
    (h : (initNode tag .string value true fieldSz forceNoKey).expanded = true) :
    pbBegin (initNode tag .string value true fieldSz forceNoKey).val.str = none := by
  by_cases hne : (initNode tag .string value true fieldSz forceNoKey).val.str = []
  · rw [hne]
    exact pbBegin_nil
  · exact expanded_initNode tag value fieldSz forceNoKey h hne

theorem evalSz_initNode_pos (tag : UInt32) (type : PbType) (value : Option PbVal) (fieldSz : ℕ) (forceNoKey : Bool) :
    0 < (initNode tag type value true fieldSz forceNoKey).evalSz := by
  simp only [initNode, if_true]
  split
  · next h => exact_mod_cast h
  · exact_mod_cast pbEvalLength_pos ..

/-- A node that `InitNode` made. -/
theorem written_initNode {tag : UInt32} (htag : TagOk tag) (type : PbType) (value : Option PbVal) (fieldSz : ℕ)
    (forceNoKey : Bool) : Written (initNode tag type value true fieldSz forceNoKey) := by
  have hfold := isFolded_initNode tag type value true fieldSz forceNoKey
  have hkey := key_initNode tag type value fieldSz forceNoKey
  have hinner : (initNode tag type value true fieldSz forceNoKey).isFolded ≠ false := by simp [hfold]
  refine ⟨⟨fun m hm => absurd hm List.not_mem_nil, fun c hc => absurd hc List.not_mem_nil⟩, htag,
    evalSz_initNode_pos .., fun hf => absurd hf hinner, fun ht => ⟨?_, rfl, rfl⟩, fun ht _ hexp => ?_, fun ht _ hno => ?_,
    fun hf => absurd hf hinner, fun hf => absurd hf hinner⟩
  · rw [hkey, if_neg fun h => ht h.1]
  · cases ht
    exact val_initNode _ _ _ _ hexp
  · rw [hkey]
    split
    · rfl
    · next hcond =>
      have hforce : forceNoKey = false := by
        cases forceNoKey with
        | false => rfl
        | true => cases hno
      have hnil : (initNode tag type value true fieldSz forceNoKey).val.str = [] := by
        by_contra hne
        exact hcond ⟨ht, hne, hforce⟩
      rw [hnil, KnvKey.ofBytes, pbBegin_nil]

theorem assembly_initNode {tag : UInt32} (htag : TagOk tag) (type : PbType) (value : Option PbVal) (fieldSz : ℕ) :
    Assembly (initNode tag type value true fieldSz) := by
  refine ⟨.of_nil (written_initNode htag ..) rfl rfl, shaped_initNode .., fun ht => ?_⟩
  have ht' : type = .string := ht
  subst ht'
  rfl

theorem written_at' {n : KnvNode} {a : ℕ} (h : Written n) : Written (n.at' a) :=
  ⟨⟨h.metas, h.children⟩, h.tag, h.pos, h.size, h.number, h.leaf, h.leafKey, h.inner, h.innerKey⟩

theorem Assembly.at' {n : KnvNode} {a : ℕ} (h : Assembly n) : Assembly (n.at' a) :=
  ⟨All.at' (fun _ _ => written_at') h.written, All.at' (fun _ _ => shape_at'.mpr) h.shaped, h.keyed⟩

/-! ### Changes -/

theorem isFolded_of_below {n : KnvNode} (ht : n.type = .string) (hexp : n.expanded = true)
    (h : n.metalist ≠ [] ∨ n.childlist ≠ []) : n.isFolded = false := by
  rw [isFolded, ht, hexp]
  rcases h with h | h <;> simp [h]

theorem Touched.isFolded {n n' : KnvNode} (h : Touched n n') : n'.isFolded = n.isFolded := by
  rw [KnvNode.isFolded, KnvNode.isFolded, h.type, h.expanded, h.metalist, h.childlist]

theorem evalSz_of_fits {n : KnvNode} (h : SizeFits n) (ht : n.type = .string) : 0 < n.evalSz := by
  rw [h ht]
  exact_mod_cast pbEvalLength_pos ..

/-- What `finish` mends. -/
theorem written_finish {n : KnvNode} (h : Unfinished n) (hbelow : n.metalist ≠ [] ∨ n.childlist ≠ []) {offset : ℤ}
    (ho : offset ≠ 0) : Written (n.finish offset).node := by
  have ht := touched_finish n offset
  have hf : (n.finish offset).node.isFolded = false := ht.isFolded.trans (isFolded_of_below h.type h.expanded hbelow)
  have hfits : SizeFits (n.finish offset).node := by
    intro _
    have hpos := h.pos
    simp only [finish, if_pos (Int.le_of_lt hpos), setValueDirty, updateEvalSz, if_neg ho, h.type]
    rfl
  have hstr : (n.finish offset).node.val.str = [] := by
    simp only [finish]
    split <;> rfl
  refine ⟨⟨ht.metalist ▸ h.metas, ht.childlist ▸ h.children⟩, ht.tag ▸ h.tag, evalSz_of_fits hfits (ht.type.trans h.type),
    fun _ => hfits, fun hty => absurd (ht.type.trans h.type) hty, fun _ hf' => ?_, fun _ hf' => ?_,
    fun _ => ⟨hstr, ht.noKey.trans h.noKey⟩, fun _ => ?_⟩
  · rw [hf] at hf'
    cases hf'
  · rw [hf] at hf'
    cases hf'
  · have hkey := h.key
    rw [KeyFirst] at hkey ⊢
    rw [ht.key, ht.metalist]
    exact hkey

/-! ### Insertions -/

/-- A value with fields that are all children. -/
def ChildrenOnly (s : Bytes) : Prop := ∀ p ∈ (pbScan s).1, ChildTag p.1.tag

theorem ChildTag.ne_one {tag : UInt32} (h : ChildTag tag) : tag ≠ 1 := by
  rintro rfl
  exact absurd h.1 (by decide)

/-- Such a value holds no key. -/
theorem ofBytes_childrenOnly {s : Bytes} (h : ChildrenOnly s) : KnvKey.ofBytes s = {} := by
  rw [KnvKey.ofBytes, pbBegin]
  cases hd : pbDecodeTag s with
  | error e => rfl
  | ok r =>
    obtain ⟨f, rest⟩ := r
    have hmem : (f, s.length - rest.length) ∈ (pbScan s).1 := by
      rw [pbScan_of_ok hd]
      exact List.mem_cons_self ..
    exact if_neg (h _ hmem).ne_one

/-- The nodes of such a value. -/
theorem parsed_childrenOnly {fs : List (PbField × ℕ)} (h : ∀ p ∈ fs, ChildTag p.1.tag) {a : ℕ} {c : KnvNode}
    (hc : c ∈ parsed false a fs) : c.isMetaTag = false ∧ All Written c ∧ ChildTag c.tag ∧
    (c.type = .string → c.noKey = false) := by
  obtain ⟨p, hp, b, rfl⟩ := mem_parsed hc
  have htag := h p hp
  have hnot : ¬p.1.tag ≤ ucMaxMetaNum := UInt32.not_le.mpr htag.1
  refine ⟨decide_eq_false hnot, .of_nil (written_at' (written_initNode htag.ok ..)) rfl rfl, htag, fun ht => ?_⟩
  have hforce : (decide (p.1.tag ≤ ucMaxMetaNum) || false) = false := by simp [hnot]
  rw [hforce]
  have ht' : p.1.type = .string := ht
  simp [ofField, initNode, KnvNode.at', ht']

/-- What an expansion makes of such a value. -/
theorem nodes_innerExpand {n : KnvNode} (hnil : n.metalist = [] ∧ n.childlist = []) (hscan : ChildrenOnly n.val.str)
    (pk : Bool) : (n.innerExpand pk false).metalist = [] ∧ ∀ c ∈ (n.innerExpand pk false).childlist,
      All Written c ∧ ChildTag c.tag ∧ (c.type = .string → c.noKey = false) := by
  have hparsed : ∀ c ∈ parsed false n.slots (pbScan n.val.str).1, c.isMetaTag = false ∧ All Written c ∧ ChildTag c.tag ∧
      (c.type = .string → c.noKey = false) := fun c hc => parsed_childrenOnly hscan hc
  refine innerExpand_rule (P := fun n' => n'.metalist = [] ∧ ∀ c ∈ n'.childlist,
    All Written c ∧ ChildTag c.tag ∧ (c.type = .string → c.noKey = false)) (fun _ => ?_) fun n' _ hn' => ?_
  · rw [hnil.2]
    exact ⟨hnil.1, fun c hc => absurd hc List.not_mem_nil⟩
  · cases hn' with
    | leaf _ => exact ⟨rfl, fun c hc => absurd hc List.not_mem_nil⟩
    | cut _ _ _ _ _ _ _ => exact ⟨rfl, fun c hc => absurd hc List.not_mem_nil⟩
    | message _ _ _ _ _ _ _ =>
      refine ⟨List.filter_eq_nil_iff.mpr fun c hc => ?_, fun c hc => (hparsed c (List.mem_filter.mp hc).1).2⟩
      simp [(hparsed c hc).1]

/-- The nodes below are as they should be. -/
def Below (n : KnvNode) : Prop := (∀ m ∈ n.metalist, All Written m) ∧ ∀ c ∈ n.childlist, All Written c

/-- A string is opened for an insertion. -/
theorem unfinished_innerExpand {n : KnvNode} (h : Assembly n) (ht : n.type = .string)
    (hscan : n.expanded = false → ChildrenOnly n.val.str) (pk : Bool) :
    Unfinished (n.innerExpand pk false) ∧ Below (n.innerExpand pk false) := by
  have hn := h.written.here
  have hno := h.keyed ht
  cases hexp : n.expanded with
  | true =>
    rw [innerExpand_of_expanded hexp]
    refine ⟨⟨⟨hn.metas, hn.children⟩, hn.tag, hn.pos, ht, hno, hexp, ?_⟩, h.written.metas, h.written.children⟩
    cases hf : n.isFolded with
    | false => exact hn.innerKey hf
    | true =>
      have hnil : n.metalist = [] := by
        simp only [isFolded, ht, hexp, bne_self_eq_false, Bool.not_true, Bool.false_or, Bool.and_eq_true,
          List.isEmpty_iff] at hf
        exact hf.2
      refine .inl ⟨?_, fun m hm => ?_⟩
      · rw [hn.leafKey ht hf hno, KnvKey.ofBytes, hn.leaf ht hf hexp]
      · rw [hnil] at hm
        exact absurd hm List.not_mem_nil
  | false =>
    have hkey : n.key = {} := by
      rw [hn.leafKey ht (isFolded_of_not_expanded hexp) hno, ofBytes_childrenOnly (hscan hexp)]
    have hsame := expandSame pk false n
    have hexp' := innerExpand_expanded pk false n
    have hlists := nodes_innerExpand (h.shaped.here.folded hexp) (hscan hexp) pk
    generalize n.innerExpand pk false = n' at *
    obtain ⟨hms, hcs⟩ := hlists
    refine ⟨⟨⟨fun m hm => ?_, fun c hc => (hcs c hc).2⟩, hsame.tag ▸ hn.tag, hsame.evalSz ▸ hn.pos,
      hsame.type.trans ht, hsame.noKey.trans hno, hexp', .inl ⟨hsame.key.trans hkey, fun m hm => ?_⟩⟩, fun m hm => ?_,
      fun c hc => (hcs c hc).1⟩
    all_goals
      rw [hms] at hm
      exact absurd hm List.not_mem_nil

/-- A child is linked. -/
theorem unfinished_linkChild {n c : KnvNode} (h : Unfinished n) (hb : Below n) (hc : Assembly c) (htag : ChildTag c.tag)
    (atTail : Bool) : Unfinished (n.linkChild c atTail) ∧ Below (n.linkChild c atTail) ∧
    (n.linkChild c atTail).childlist ≠ [] := by
  have hmem : ∀ x, x ∈ (n.linkChild c atTail).childlist ↔ x ∈ n.childlist ∨ x = c.at' n.slots := by
    intro x
    simp only [linkChild]
    cases atTail
    · simp [or_comm]
    · simp
  have hc' := hc.at' (a := n.slots)
  refine ⟨⟨⟨h.metas, fun x hx => ?_⟩, h.tag, h.pos, h.type, h.noKey, h.expanded, h.key⟩,
    ⟨hb.1, fun x hx => ?_⟩, fun hnil => ?_⟩
  · rcases (hmem x).mp hx with hx | rfl
    · exact h.children x hx
    · exact ⟨htag, hc'.keyed⟩
  · rcases (hmem x).mp hx with hx | rfl
    · exact hb.2 x hx
    · exact hc'.written
  · have := (hmem (c.at' n.slots)).mpr (.inr rfl)
    rw [hnil] at this
    exact absurd this List.not_mem_nil

/-- A copy is put together, too. -/
theorem assembly_toLink {c d : KnvNode} (h : Assembly c) {own : Bool} (hd : c.toLink own = .ok d) :
    Assembly d ∧ d.tag = c.tag := by
  unfold toLink at hd
  split at hd
  · cases hd
    exact ⟨h, rfl⟩
  · have htag := h.written.here.tag
    unfold innerDuplicate at hd
    split at hd
    · simp only at hd
      rw [evaluateSize_of_nonneg h.shaped.here.evaluated] at hd
      split at hd
      · cases hd
      split at hd
      · cases hd
      · cases hd
        exact ⟨assembly_initNode htag .., rfl⟩
    · cases hd
      exact ⟨assembly_initNode htag .., rfl⟩

theorem written_of_finish {n : KnvNode} (h : Unfinished n) (hb : Below n) (hbelow : n.metalist ≠ [] ∨ n.childlist ≠ [])
    {offset : ℤ} (ho : offset ≠ 0) : All Written (n.finish offset).node := by
  have ht := touched_finish n offset
  exact .mk (written_finish h hbelow ho) (ht.metalist ▸ hb.1) (ht.childlist ▸ hb.2)

/-- **An insertion** leaves a tree that is put together, in the same place. -/
theorem assembly_insertChild {n c : KnvNode} (h : Assembly n) (hc : Assembly c) (htag : ChildTag c.tag)
    (hscan : n.expanded = false → ChildrenOnly n.val.str) {own atTail : Bool} {pl : Place} {r : ℕ}
    (hr : (insertChild c own atTail pl n).ret = .ok r) : Assembly (insertChild c own atTail pl n).node := by
  have hshape := (keepsShape_insertChild h.shaped hc.shaped own atTail pl).1
  revert hr hshape
  refine insertChild_rule (P := fun o => o.ret = .ok r → Shaped o.node → Assembly o.node) (fun e he => nomatch he)
    fun hv ht n' hn' => ⟨fun e he => (nomatch he), fun d hd c' hc' _ hshape => ?_⟩
  obtain ⟨hun, hb⟩ := unfinished_innerExpand h ht hscan pl.parentKeyed
  rw [← hn'] at hun hb
  obtain ⟨hd', hdtag⟩ := assembly_toLink hc hd
  have heq : c' = d := by
    rw [hc', evaluateSize_of_nonneg hd'.shaped.here.evaluated, ite_self]
  subst heq
  obtain ⟨hun', hb', hne⟩ := unfinished_linkChild hun hb hd' (hdtag ▸ htag) atTail
  have hpos := hd'.written.here.pos
  refine ⟨written_of_finish hun' hb' (.inr hne) (Int.ne_of_gt hpos), hshape, fun _ => ?_⟩
  exact (touched_finish _ _).noKey.trans hun'.noKey

/-- A meta that is no key is added at the end. -/
theorem unfinished_addMetaNode {n : KnvNode} (h : Unfinished n) (hb : Below n) {tag : UInt32} (htag : MetaTag tag)
    (hone : tag ≠ 1) (type : PbType) (data : Option PbVal) :
    Unfinished (n.addMetaNode tag type data) ∧ Below (n.addMetaNode tag type data) ∧
      (n.addMetaNode tag type data).metalist = n.metalist ++ [(initNode tag type data true 0 true).at' n.slots] := by
  have hlist : (n.addMetaNode tag type data).metalist =
      n.metalist ++ [(initNode tag type data true 0 true).at' n.slots] := if_neg hone
  refine ⟨⟨⟨fun m hm => ?_, h.children⟩, h.tag, h.pos, h.type, h.noKey, h.expanded, ?_⟩, ⟨fun m hm => ?_, hb.2⟩, hlist⟩
  · rw [hlist] at hm
    rcases List.mem_append.mp hm with hm | hm
    · exact h.metas m hm
    · exact List.mem_singleton.mp hm ▸ htag
  · rcases h.key with ⟨hk, hms⟩ | ⟨hk, hinit, m, ms, hm, h1⟩
    · refine .inl ⟨hk, fun m hm => ?_⟩
      rw [hlist] at hm
      rcases List.mem_append.mp hm with hm | hm
      · exact hms m hm
      · exact List.mem_singleton.mp hm ▸ hone
    · exact .inr ⟨hk, hinit, m, _, by rw [hlist, hm]; rfl, h1⟩
  · rw [hlist] at hm
    rcases List.mem_append.mp hm with hm | hm
    · exact hb.1 m hm
    · exact List.mem_singleton.mp hm ▸ .of_nil (written_at' (written_initNode htag.ok ..)) rfl rfl

theorem metaSize_pos (tag : UInt32) (type : PbType) (data : Option PbVal) : 0 < metaSize tag type data := by
  rw [metaSize]
  exact_mod_cast pbEvalLength_pos ..

/-- No bytes are no key. -/
theorem init_of_bytes_nil {t : PbType} {v : PbVal} (h : (KnvKey.init t (some v)).bytes = []) :
    KnvKey.init t (some v) = {} := by
  cases t
  case string => exact congrArg (KnvKey.mk .string) h
  all_goals
    have hlen := congrArg List.length h
    simp [KnvKey.init] at hlen

/-- **`New`**, with the key given or in the value. -/
theorem assembly_new {tag : UInt32} {type keytype : PbType} {key val : Option PbVal} {c : KnvNode} (htag : ChildTag tag)
    (hscan : key ≠ none → type = .string → ∀ v, val = some v → ChildrenOnly v.str)
    (h : new tag type keytype key val = .ok c) : Assembly c ∧ c.tag = tag := by
  obtain ⟨-, ⟨-, rfl⟩ | ⟨k, hk, hn⟩⟩ := new_cases h
  · exact ⟨assembly_initNode htag.ok .., rfl⟩
  -- the node before its key is made
  obtain ⟨n, hndef⟩ : ∃ n, n = { initNode tag type val with key := KnvKey.init keytype (some k) } := ⟨_, rfl⟩
  have hinit := written_initNode htag.ok type val 0 false
  have hfold : n.isFolded = true := hndef ▸ isFolded_initNode tag type val true 0 false
  have hsame : n.tag = tag ∧ n.type = type ∧ n.metalist = [] ∧ n.childlist = [] := by
    rw [hndef]
    exact ⟨rfl, rfl, rfl, rfl⟩
  have honly : n.type = .string → ChildrenOnly n.val.str := by
    intro ht
    rw [hndef] at ht ⊢
    have ht' : type = .string := ht
    cases val with
    | none => exact fun p hp => absurd hp List.not_mem_nil
    | some v =>
      have := hscan (by rw [hk]; exact Option.some_ne_none _) ht' v rfl
      subst ht'
      exact this
  have hno : n.type = .string → n.noKey = false := by
    intro ht
    rw [hndef] at ht ⊢
    have ht' : type = .string := ht
    subst ht'
    rfl
  have hshape : Shaped n := .of_nil (hndef ▸ ⟨fun _ => ⟨rfl, rfl⟩, List.nodup_nil, fun _ ha => absurd ha List.not_mem_nil,
    Int.le_of_lt hinit.pos⟩) hsame.2.2.1 hsame.2.2.2
  have hpos : 0 < n.evalSz := by
    rw [hndef]
    exact hinit.pos
  obtain ⟨hempty, rfl⟩ | ⟨hne, r, hr, rfl⟩ := hn n hndef
  · -- an empty key is no key, and there is none in the value
    have hkey : c.key = {} := by
      rw [hndef] at hempty ⊢
      exact init_of_bytes_nil hempty
    have hw : Written c := by
      refine ⟨⟨by simp [hsame], by simp [hsame]⟩, hsame.1 ▸ htag.ok, hpos, fun hf => ?_, fun _ => ⟨hkey, hsame.2.2⟩,
        fun ht _ hexp => ?_, fun ht _ _ => ?_, fun hf => ?_, fun hf => ?_⟩
      · rw [hfold] at hf; cases hf
      · rw [hndef] at ht hexp ⊢
        have ht' : type = .string := ht
        subst ht'
        exact val_initNode tag val 0 false hexp
      · rw [hkey, ofBytes_childrenOnly (honly ht)]
      · rw [hfold] at hf; cases hf
      · rw [hfold] at hf; cases hf
    exact ⟨⟨.of_nil hw hsame.2.2.1 hsame.2.2.2, hshape, hno⟩, hsame.1⟩
  · -- the key is the only meta
    have hkeep := keepsShape_setMetaInner hshape 1 keytype (some n.key.getValue) {}
    have hshape' := hkeep.1
    have hkinit : ∃ t v, n.key = KnvKey.init t v := ⟨keytype, some k, by rw [hndef]⟩
    clear hkeep hn
    revert hr hshape'
    refine setMetaInner_rule (P := fun o => o.ret = .ok r → Shaped o.node → Assembly o.node ∧ o.node.tag = tag)
      (fun _ e he => nomatch he) fun hv ht _ n' hn' => ?_
    have hlists := nodes_innerExpand hsame.2.2 (honly ht) (({} : Place).parentKeyed)
    have hexpand := expandSame ({} : Place).parentKeyed false n
    have hexp := innerExpand_expanded ({} : Place).parentKeyed false n
    rw [← hn'] at hlists hexpand hexp
    obtain ⟨hms, hcs⟩ := hlists
    refine ⟨fun m hm => ?_, fun _ _ hshape' => ⟨⟨?_, hshape', fun _ => ?_⟩, ?_⟩⟩
    · -- there is no meta to overwrite
      rw [metaAt, hms] at hm
      cases hm
    · have hlist : (n'.addMetaNode 1 keytype (some n.key.getValue)).metalist =
          [(initNode 1 keytype (some n.key.getValue) true 0 true).at' n'.slots] := by
        rw [addMetaNode, hms]
        rfl
      have hmeta : All Written ((initNode 1 keytype (some n.key.getValue) true 0 true).at' n'.slots) :=
        .of_nil (written_at' (written_initNode (by decide) ..)) rfl rfl
      have hun : Unfinished (n'.addMetaNode 1 keytype (some n.key.getValue)) := by
        refine ⟨⟨fun m hm => ?_, fun c hc => (hcs c hc).2⟩, ?_, ?_, hexpand.type.trans ht, hexpand.noKey.trans (hno ht),
          hexp, .inr ⟨?_, ?_, _, _, hlist, rfl⟩⟩
        · rw [hlist] at hm
          exact List.mem_singleton.mp hm ▸ (⟨by decide, by decide⟩ : MetaTag 1)
        · exact (hexpand.tag.trans hsame.1) ▸ htag.ok
        · exact hexpand.evalSz ▸ hpos
        · exact hexpand.key ▸ hne
        · exact hexpand.key ▸ hkinit
      refine written_of_finish hun ⟨fun m hm => ?_, fun c hc => (hcs c hc).1⟩ (.inl ?_) (Int.ne_of_gt (metaSize_pos ..))
      · rw [hlist] at hm
        exact List.mem_singleton.mp hm ▸ hmeta
      · rw [hlist]
        exact List.cons_ne_nil _ _
    · exact (touched_finish _ _).noKey.trans (hexpand.noKey.trans (hno ht))
    · exact (touched_finish _ _).tag.trans (hexpand.tag.trans hsame.1)

/-! ### Runs -/

theorem str_turnDirty {n : KnvNode} {u : Bool} (h : n.val.str = []) : (n.turnDirty u).1.val.str = [] := by
  unfold turnDirty
  split
  · split
    · exact h
    · rfl
  · exact h

theorem val_turnEval (n : KnvNode) (o : ℤ) (u : Bool) : (n.turnEval o u).1.val = n.val := by
  unfold turnEval updateEvalSz
  split
  · split
    · rfl
    · split <;> rfl
  · rfl

/-- A parent without a value is left without one. -/
theorem str_handleAll {a : ℕ} {evs : List Ev} : ∀ {p : KnvNode}, p.val.str = [] → (p.handleAll a evs).1.val.str = [] := by
  induction evs with
  | nil => exact id
  | cons ev evs ih =>
    intro p h
    have hev : (p.handle a ev).1.val.str = [] := by
      cases ev with
      | htRemove tag key => exact h
      | htPut tag key => exact h
      | update o e d =>
        rw [handle_update]
        split
        · exact str_turnDirty (by rw [val_turnEval, h])
        · exact h
    exact ih hev

/-- **Whatever a child tells**, its parent is put together as before. -/
theorem Assembly.hear {p c c' : KnvNode} {i : ℕ} (evs : List Ev) (h : Assembly p) (hc : p.childlist[i]? = some c)
    (hc' : Assembly c') (hself : c'.self = c.self) (htag : c'.tag = c.tag) :
    Assembly ((p.setSlot (.ofChild i) c').handleAll c'.self evs).1 := by
  have hp := h.written.here
  have hne : p.childlist ≠ [] := List.ne_nil_of_mem (List.mem_of_getElem? hc)
  have htype : p.type = .string := by
    by_contra ht
    exact hne (hp.number ht).2.2
  have hexp : p.expanded = true := by
    by_contra hexp
    exact hne (h.shaped.here.folded (by simpa using hexp)).2
  have hf : p.isFolded = false := isFolded_of_below htype hexp (.inr hne)
  obtain ⟨hstr, hno⟩ := hp.inner hf
  have ht := touched_handleAll c'.self evs (p.setSlot (.ofChild i) c')
  have hfits : SizeFits ((p.setSlot (.ofChild i) c').handleAll c'.self evs).1 :=
    SizeFits.handleAll _ _ (hp.size hf)
  have hval : ((p.setSlot (.ofChild i) c').handleAll c'.self evs).1.val.str = [] := str_handleAll hstr
  have hshape := (h.shaped.setSlot (s := .ofChild i) hc hc'.shaped hself).touched ht
  have hfold := ht.isFolded.trans ((isFolded_setSlot p (.ofChild i) c').trans hf)
  generalize ((p.setSlot (.ofChild i) c').handleAll c'.self evs).1 = p' at *
  have hms : p'.metalist = p.metalist := ht.metalist
  have hcs : ∀ x ∈ p'.childlist, x ∈ p.childlist ∨ x = c' := by
    intro x hx
    rw [ht.childlist] at hx
    exact List.mem_or_eq_of_mem_set hx
  have htype' : p'.type = .string := ht.type.trans htype
  have hkey : p'.key = p.key := ht.key
  refine ⟨.mk ⟨⟨hms ▸ hp.metas, fun x hx => ?_⟩, ht.tag ▸ hp.tag, evalSz_of_fits hfits htype', fun _ => hfits,
    fun hty => absurd htype' hty, fun _ hf' => ?_, fun _ hf' => ?_, fun _ => ⟨hval, ht.noKey.trans hno⟩, fun _ => ?_⟩
    (hms ▸ h.written.metas) fun x hx => ?_, hshape, fun _ => ht.noKey.trans hno⟩
  · rcases hcs x hx with hx | rfl
    · exact hp.children x hx
    · exact ⟨htag ▸ (hp.children c (List.mem_of_getElem? hc)).1, hc'.keyed⟩
  · rw [hfold] at hf'
    cases hf'
  · rw [hfold] at hf'
    cases hf'
  · have hfirst := hp.innerKey hf
    rw [KeyFirst] at hfirst ⊢
    rw [hkey, hms]
    exact hfirst
  · rcases hcs x hx with hx | rfl
    · exact h.written.children x hx
    · exact hc'.written

theorem Assembly.child {n c : KnvNode} (h : Assembly n) (hc : c ∈ n.childlist) : Assembly c :=
  ⟨h.written.children c hc, h.shaped.children c hc, (h.written.here.children c hc).2⟩

/-- **An operation at any path**, if it succeeds, leaves the whole tree put together. -/
theorem assembly_runAt (op : Op) {root : KnvNode} {path : List Slot} {out : Out} (h : Assembly root)
    (hpath : ChildPath path) (hop : ∀ pl t, nodeAt hanging path root = some t → Assembly t →
      (op.run pl t).ret = out.ret → Assembly (op.run pl t).node ∧ (op.run pl t).node.self = t.self ∧
        (op.run pl t).node.tag = t.tag)
    (hrun : op.runAt path root = some out) : Assembly out.node ∧ out.node.self = root.self ∧ out.node.tag = root.tag := by
  refine editAt_rule (H := hanging) (fun _ n => Assembly n) (fun _ n n' _ => n'.self = n.self ∧ n'.tag = n.tag)
    (fun s => ∃ i, s = .ofChild i) (fun _ n s c hn hs hc => ?_) (fun _ p s c c' msgs hp hs hc hc' hlink => ?_) path {} root
    out hpath h (fun pl t hpl ht hJ => ?_) hrun
  · obtain ⟨i, rfl⟩ := hs
    exact hn.child (List.mem_of_getElem? hc)
  · obtain ⟨i, rfl⟩ := hs
    rw [notify_setSlot (s := .ofChild i) hc]
    have ht := touched_handleAll c'.self msgs (p.setSlot (.ofChild i) c')
    exact ⟨hp.hear _ hc hc' hlink.1 hlink.2, ht.self, ht.tag⟩
  · exact hop pl t ht hJ (ret_of_editAt hrun hpl ht).symm

theorem tag_insertChild {c : KnvNode} {own atTail : Bool} {pl : Place} {n : KnvNode} :
    (insertChild c own atTail pl n).node.tag = n.tag := by
  refine insertChild_rule (P := fun o => o.node.tag = n.tag) (fun _ => rfl) fun _ _ n' hn' => ?_
  have hexpand := expandSame pl.parentKeyed false n
  rw [← hn'] at hexpand
  exact ⟨fun _ => hexpand.tag, fun d _ c' _ => (touched_finish _ _).tag.trans hexpand.tag⟩

end KnvNode

open KnvNode

/-- The trees made by `NewTree` or `New` and by insertions, at any place that is reached through children, of other such
trees or of copies of them. What lies in a value that an insertion looks into are children, too. -/
inductive Assembled : KnvNode → Prop
  /-- `NewTree`, with or without a key. -/
  | newTree {tag : UInt32} {key : Option KnvKey} {n : KnvNode} : ChildTag tag → newTree tag key = .ok n → Assembled n
  /-- `New`, as `InsertSubNode`, `InsertIntLeaf`, `InsertStrLeaf` and `InsertChild` of a type and a value make a child. -/
  | new {tag : UInt32} {type keytype : PbType} {key val : Option PbVal} {n : KnvNode} : ChildTag tag →
      (key ≠ none → type = .string → ∀ v, val = some v → ChildrenOnly v.str) → new tag type keytype key val = .ok n →
      Assembled n
  /-- `InsertChild`. -/
  | insertChild {root c : KnvNode} {own atTail : Bool} {path : List Slot} {out : Out} {r : ℕ} : Assembled root →
      Assembled c → ChildPath path →
      (∀ t, nodeAt hanging path root = some t → t.expanded = false → ChildrenOnly t.val.str) →
      (Op.insertChild c own atTail).runAt path root = some out → out.ret = .ok r → Assembled out.node

namespace KnvNode

theorem assembly_newTree {tag : UInt32} {key : Option KnvKey} {n : KnvNode} (htag : ChildTag tag)
    (h : newTree tag key = .ok n) : Assembly n ∧ n.tag = tag := by
  cases key with
  | none =>
    exact assembly_new htag (fun hne => absurd rfl hne)
      (show KnvNode.new tag .string .string none none = .ok n from h)
  | some k =>
    refine assembly_new htag (fun _ _ v hv => ?_) (show KnvNode.new tag .string k.type (some k.getValue) none = .ok n from h)
    cases hv

/-- In every state of every run. -/
theorem assembly_of_assembled {n : KnvNode} (h : Assembled n) : Assembly n ∧ ChildTag n.tag := by
  induction h with
  | newTree htag h =>
    obtain ⟨ha, ht⟩ := assembly_newTree htag h
    exact ⟨ha, ht ▸ htag⟩
  | new htag hscan h =>
    obtain ⟨ha, ht⟩ := assembly_new htag hscan h
    exact ⟨ha, ht ▸ htag⟩
  | @insertChild root c own atTail path out r _ _ hpath hscan hrun hret ih ihc =>
    obtain ⟨ha, -, ht⟩ := assembly_runAt (.insertChild c own atTail) ih.1 hpath (fun pl t ht hJ hr =>
      ⟨assembly_insertChild hJ ihc.1 ihc.2 (hscan t ht) (hr.trans hret),
        (keepsShape_insertChild hJ.shaped ihc.1.shaped own atTail pl).2, tag_insertChild⟩) hrun
    exact ⟨ha, ht ▸ ih.2⟩

theorem Assembly.plain {n : KnvNode} (h : Assembly n) : Plain n := by
  refine plain_serialize (h.written.imp fun x hx => ⟨fun hf => hx.size hf (type_of_not_folded hf), fun hf hc => ?_⟩) h.shaped
  rw [isClean, isBufferValid, (hx.inner hf).1] at hc
  cases hc

/-- **What is written of a tree that is put together is the plain encoding.** -/
theorem serialize_written {n : KnvNode} (h : Assembly n) {len : ℕ} {out : Bytes} (hout : n.serialize len true = .ok out) :
    out = n.plain := (h.plain len out).1 hout

end KnvNode

end KnvProto
