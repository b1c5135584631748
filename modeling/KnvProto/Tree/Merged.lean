import KnvProto.Tree.Alike
import KnvProto.Tree.Merge
import KnvProto.Tree.Served

/-!
# What UpdateSubTree does

`UpdateSubTree` of a parsed message by a parsed message is `mergeField` of the messages: it
fails exactly when the merge fails, and otherwise `Serialize` writes the merged message.

## The model

The nodes of a message that has only been parsed are those of its fields (`FromField`). While an
update goes on in a node, `Updating` says what its metas and children are so far; each turn
of a loop of `UpdateSubTree` is one `put` of the merge.
-/

namespace KnvProto

open PathEdit Merge

namespace KnvNode

variable {n x u c s : KnvNode} {f g d : PbField} {k pk : Bool} {pl q : Place} {ms cs : List PbField}

/-! ### Nodes of fields -/

/-- A node as it is parsed from a field, with a key or without. -/
def FromField (k : Bool) (f : PbField) (n : KnvNode) : Prop := ∃ a, n = (ofField (sized f) k).at' a

theorem FromField.tag (h : FromField k f n) : n.tag = f.tag := by
  obtain ⟨a, rfl⟩ := h
  rfl

theorem FromField.type (h : FromField k f n) : n.type = f.type := by
  obtain ⟨a, rfl⟩ := h
  rfl

theorem FromField.val (h : FromField k f n) (hn : f.norm = f) : n.val = f.val := by
  obtain ⟨a, rfl⟩ := h
  exact pick_of_norm hn

theorem FromField.nil (h : FromField k f n) : n.metalist = [] ∧ n.childlist = [] := by
  obtain ⟨a, rfl⟩ := h
  exact ⟨rfl, rfl⟩

theorem FromField.toField (h : FromField k f n) (hn : f.norm = f) : n.toField = f := by
  obtain ⟨a, rfl⟩ := h
  exact toField_ofField hn ..

theorem FromField.plain (h : FromField k f n) (hn : f.norm = f) : n.plain = f.encode := by
  obtain ⟨a, rfl⟩ := h
  rw [plain_at']
  exact plain_ofField hn ..

theorem FromField.indexed (h : FromField k f n) : All Indexed n := by
  obtain ⟨a, rfl⟩ := h
  exact All.at' (fun _ _ => indexed_at'.mpr) (.of_nil (indexed_initNode ..) rfl rfl)

theorem ofBytes_nil : KnvKey.ofBytes [] = {} := rfl

/-- The key of a node is the one its value begins with. -/
theorem FromField.key (h : FromField false f n) (hn : f.norm = f) : n.key = fieldKey f := by
  have hval := h.val hn
  obtain ⟨a, rfl⟩ := h
  have hkey : (ofField (sized f) false).key = _ := key_initNode f.tag f.type (some f.val) f.encode.length false
  have hval' : (initNode f.tag f.type (some f.val) true f.encode.length).val = f.val := hval
  show (ofField (sized f) false).key = _
  rw [hkey, hval', fieldKey]
  by_cases ht : f.type = .string
  · by_cases hs : f.val.str = []
    · rw [if_neg (by simp [hs]), if_pos ht, hs, ofBytes_nil]
    · rw [if_pos ⟨ht, hs, rfl⟩, if_pos ht]
  · rw [if_neg (by simp [ht]), if_neg ht]

/-- A node that is read without its key has none. -/
theorem FromField.key_of_noKey (h : FromField true f n) : n.key = {} := by
  obtain ⟨a, rfl⟩ := h
  have hinit : (ofField (sized f) true).key = _ := key_initNode f.tag f.type (some f.val) f.encode.length true
  rw [if_neg (fun hc => by cases hc.2.2)] at hinit
  exact hinit

/-- The identity of a child among its siblings. -/
def childIdent (c : KnvNode) : UInt32 × Bytes := (c.tag, c.key.bytes)

theorem FromField.childIdent (h : FromField false f n) (hn : f.norm = f) : n.childIdent = ident f := by
  rw [KnvNode.childIdent, h.tag, h.key hn, ident]

/-- A node that has been expanded when it was made has nothing to be looked into. -/
theorem FromField.content_of_expanded (h : FromField k f n) (hn : f.norm = f) (hexp : n.expanded = true) :
    contentOf f = ([], []) := by
  have hval := h.val hn
  obtain ⟨a, rfl⟩ := h
  unfold contentOf
  split
  swap
  · rfl
  next ht =>
  have hnone : pbBegin f.val.str = none := by
    by_cases hs : f.val.str = []
    · rw [hs, pbBegin_nil]
    · have hinit := expanded_initNode f.tag (some f.val) f.encode.length k
      rw [← ht] at hinit
      have hval' : (initNode f.tag f.type (some f.val) true f.encode.length k).val = f.val := hval
      rw [hval'] at hinit
      exact hinit hexp hs
  rw [KnvProto.content, if_neg]
  intro hb
  rw [hnone] at hb
  cases hb.1

theorem forall₂_fromField {b : Bool} : ∀ {fs : List PbField} (a : ℕ), (∀ f ∈ fs, (decide (f.tag ≤ ucMaxMetaNum) || k) = b) →
    List.Forall₂ (FromField b) fs (parsed k a (fs.map sized)) := by
  intro fs
  induction fs with
  | nil => exact fun _ _ => .nil
  | cons f fs ih =>
    intro a h
    refine .cons ⟨a, ?_⟩ (ih (a + 1) fun g hg => h g (List.mem_cons_of_mem _ hg))
    rw [← h f (List.mem_cons_self ..)]
    rfl

/-- **What an expansion finds in a canonical field**: the nodes of its metas and children. -/
theorem FromField.opened (h : FromField k f n) (hf : Genuine f) (htag : ¬(f.tag = 1 ∧ pk = true)) (k' : Bool) :
    List.Forall₂ (FromField true) (contentOf f).1 (n.innerExpand pk k').metalist ∧
      List.Forall₂ (FromField k') (contentOf f).2 (n.innerExpand pk k').childlist := by
  cases hexp : n.expanded with
  | true =>
    rw [innerExpand_of_expanded hexp, h.content_of_expanded hf.norm hexp, h.nil.1, h.nil.2]
    exact ⟨.nil, .nil⟩
  | false =>
    have hval := h.val hf.norm
    have hun : Unfolded pk k' n (n.innerExpand pk k') := unfolded hexp fun _ => hval ▸ hf.canon
    cases hun with
    | leaf hleaf hms hcs _ =>
      have hnone : contentOf f = ([], []) := by
        unfold contentOf
        split
        swap
        · rfl
        next ht =>
        rcases hleaf with hty | hkey | hnone
        · exact absurd (h.type.trans ht) hty
        · exact absurd ⟨h.tag ▸ hkey.1, hkey.2⟩ htag
        · rw [KnvProto.content, if_neg]
          intro hb
          rw [← hval, hnone] at hb
          cases hb.1
      rw [hnone, hms, hcs]
      exact ⟨.nil, .nil⟩
    | message ms cs ht hs hne hok _ _ hms hcs hmetas hchildren _ =>
      have hcontent : contentOf f = (ms, cs) := by
        rw [contentOf, if_pos (h.type.symm.trans ht), ← hval, hs, content_encodeAll hok hms hcs]
      rw [hcontent, hmetas, hchildren]
      exact ⟨forall₂_fromField _ fun f hf => by rw [decide_eq_true (hms f hf), Bool.true_or],
        forall₂_fromField _ fun f hf => by rw [decide_eq_false (hcs f hf), Bool.false_or]⟩

theorem FromField.shaped (h : FromField k f n) : Shaped n := by
  obtain ⟨a, rfl⟩ := h
  exact All.at' (fun _ _ => shape_at'.mpr) (shaped_initNode ..)

theorem FromField.valid (h : FromField k f n) (hok : f.Ok) : n.isValid = true := by
  rw [isValid, h.tag]
  refine bne_iff_ne.mpr fun h0 => ?_
  have hpos := hok.1.1
  rw [h0] at hpos
  exact absurd hpos (by decide)

theorem getValue_kept (hv : n.isValid = true) (hkeep : n.isFolded || n.isClean) : n.getValue.2 = .ok n.val := by
  rw [KnvNode.getValue, fold, if_neg (by simp [hv]), if_pos hkeep]
  rfl

/-- The value of a canonical field is there, when it has been looked into. -/
theorem FromField.getValue (h : FromField k f n) (hf : Genuine f) (k' : Bool) :
    (n.innerExpand pk k').getValue.2 = .ok f.val := by
  have hsame := expandSame pk k' n
  have hkeep : (n.innerExpand pk k').isFolded || (n.innerExpand pk k').isClean := by
    cases hexp : n.expanded with
    | true => rw [innerExpand_of_expanded hexp, isFolded_of_nil h.nil.1 h.nil.2, Bool.true_or]
    | false =>
      have hun : Unfolded pk k' n (n.innerExpand pk k') := unfolded hexp fun _ => h.val hf.norm ▸ hf.canon
      cases hun with
      | leaf _ hms hcs _ => rw [isFolded_of_nil hms hcs, Bool.true_or]
      | message ms cs _ hs hne _ _ _ _ _ _ _ hdirty =>
        have hstr : (n.innerExpand pk k').val.str ≠ [] := by
          rw [hsame.val, hs]
          obtain ⟨g, gs, hcons⟩ := List.exists_cons_of_ne_nil hne
          rw [hcons, encodeAll_cons]
          exact List.append_ne_nil_of_left_ne_nil (List.ne_nil_of_length_pos (length_encode_pos' _)) _
        rw [isClean, isBufferValid, hdirty, bne_iff_ne.mpr hstr, Bool.not_false, Bool.and_true, Bool.or_true]
  rw [getValue_kept _ hkeep, hsame.val, h.val hf.norm]
  rw [isValid, hsame.tag]
  exact h.valid hf.ok

/-! ### Values -/

/-- A leaf is written as its value. -/
theorem toField_leaf (h : n.isFolded = true) : n.toField = PbField.norm ⟨n.tag, n.type, n.val⟩ := by
  rw [toField, plainVal_of_folded h, fieldOf]
  cases ht : n.type <;> rfl

/-- A function that gives what a merge gives: it fails exactly when there is nothing, and otherwise leaves a node that is
written as the field. -/
structure Yields (m : Option PbField) (o : Out) : Prop where
  ok : ∀ r, m = some r → o.ret = .ok 0 ∧ o.node.toField = r
  fail : m = none → ∃ e, o.ret = .error e

theorem Yields.some {o : Out} (hret : o.ret = .ok 0) (hfield : o.node.toField = f) : Yields (some f) o := by
  refine ⟨fun r hr => ?_, fun h => ?_⟩
  · cases hr
    exact ⟨hret, hfield⟩
  · cases h

theorem Yields.none {o : Out} {e : KnvErr} (h : o.ret = .error e) : Yields none o := by
  refine ⟨fun r hr => ?_, fun _ => ⟨e, h⟩⟩
  cases hr

theorem Yields.orFail {m : Option PbField} {o : Out} (h : Yields m o) (ret : ℤ) : Yields m (orFail ret o) := by
  cases m with
  | none =>
    obtain ⟨e, he⟩ := h.fail rfl
    exact .none (e := ⟨ret, e.errmsg⟩) (by rw [KnvNode.orFail, he]; rfl)
  | some r =>
    obtain ⟨hret, hfield⟩ := h.ok r rfl
    exact .some (by rw [KnvNode.orFail, hret]; rfl) hfield

/-- `SetValue` of a string leaves the string. -/
theorem toField_setValueStr (hv : n.isValid = true) (ht : n.type = .string) (v : Bytes) :
    (n.setValueStr v).ret = .ok 0 ∧ (n.setValueStr v).node.toField = PbField.norm ⟨n.tag, n.type, { str := v }⟩ := by
  have hset : ∀ o : Out, o = n.setValueStr v → o.ret = .ok 0 := by
    intro o ho
    rw [ho, setValueStr, if_neg (by simp [hv]), if_neg (by simp [ht])]
  refine ⟨hset _ rfl, ?_⟩
  have hret := hset _ rfl
  revert hret
  refine setValueStr_rule (P := fun o => o.ret = .ok 0 → o.node.toField = _) (fun e h => by cases h)
    fun _ _ k evs _ n' hn' w hw _ => ?_
  have htouch : Touched n' w.1 ∧ w.1.val = n'.val := by
    rw [hw]
    split
    · refine ⟨touched_updateEvalSz .., ?_⟩
      unfold updateEvalSz
      split <;> rfl
    · exact ⟨.refl _, rfl⟩
  have hnil : w.1.metalist = [] ∧ w.1.childlist = [] := by
    rw [htouch.1.metalist, htouch.1.childlist, hn']
    exact ⟨rfl, rfl⟩
  rw [toField_leaf (isFolded_of_nil hnil.1 hnil.2), htouch.1.tag, htouch.1.type, htouch.2, hn']

/-- **The node takes the value**, or fails where a string is given to a number, or a number to a string. -/
theorem yields_setValue (hv : n.isValid = true) (htag : n.tag = d.tag) (htype : n.type = d.type) (ht : u.type = g.type) :
    Yields (overwriteField g d) (n.setValue u.type g.val) := by
  unfold setValue overwriteField
  rw [ht]
  by_cases hg : g.type = .string
  · rw [if_pos hg]
    by_cases hd : d.type = .string
    · rw [if_pos (by simp [hg, hd])]
      obtain ⟨hret, hfield⟩ := toField_setValueStr hv (htype.trans hd) g.val.str
      refine .some hret (hfield.trans ?_)
      rw [htag, htype, PbField.norm, PbField.norm]
      simp only [hd]
      rfl
    · rw [if_neg (by simp [hg, hd]), setValueStr, if_neg (by simp [hv]), if_pos (htype ▸ hd)]
      exact .none rfl
  · rw [if_neg hg]
    by_cases hd : d.type = .string
    · rw [if_neg (by simp [hg, hd]), setValueInt, if_neg (by simp [hv]), if_pos (htype.trans hd)]
      exact .none rfl
    · rw [if_pos (by simp [hg, hd]), setValueInt, if_neg (by simp [hv]), if_neg (htype ▸ hd)]
      refine .some rfl ((toField_leaf ?_).trans ?_)
      · rw [isFolded]
        simp only [htype, bne_iff_ne.mpr hd, Bool.true_or]
      · rw [PbField.norm, PbField.norm]
        simp only [htag, htype]
        cases hty : d.type <;> first | rfl | exact absurd hty hd

/-- What a parent needs of a node that has changed: its index hears of it, and the key is the same. -/
structure Passed (n : KnvNode) (o : Out) : Prop where
  told : Told n o.node o.msgs
  key : o.node.key.bytes = n.key.bytes

/-- The same of a node that has been looked into. -/
theorem Passed.of_same {o : Out} (h : Passed x o) (htag : x.tag = n.tag) (hkey : x.key = n.key) : Passed n o := by
  refine ⟨?_, h.key.trans (congrArg _ hkey)⟩
  cases h.told with
  | quiet hevs ht hk => exact .quiet hevs (ht.trans htag) (hk.trans (congrArg _ hkey))
  | moved hevs => exact .moved (by rw [hevs, htag, hkey])

/-- `SetValue` passes a node on, where the test of the key leaves the key, and the value begins with it. -/
theorem passed_setValueStr {v : Bytes} (h : (n.keyAfterTest v).bytes = n.key.bytes)
    (hkey : n.hasKey = true → KnvKey.ofBytes v = n.key) : Passed n (n.setValueStr v) := by
  refine setValueStr_rule (P := Passed n) (fun _ => ⟨.quiet rfl rfl rfl, rfl⟩) fun _ _ k evs hk n' hn' w hw => ?_
  have ht : Touched n' w.1 := by
    rw [hw]
    split
    · exact touched_updateEvalSz ..
    · exact .refl _
  have htag : w.1.tag = n.tag := ht.tag.trans (by rw [hn'])
  have hwkey : w.1.key = k := ht.key.trans (by rw [hn'])
  obtain ⟨hno, hne, rfl, rfl⟩ | ⟨-, rfl, rfl⟩ := hk
  · refine ⟨.moved ?_, ?_⟩
    · rw [htag, hwkey, ← h]
      rfl
    · rw [hwkey, hkey (by rw [hasKey, hno, ← h, bne_iff_ne.mpr hne]; rfl)]
  · exact ⟨.quiet rfl htag (by rw [hwkey, h]), by rw [hwkey, h]⟩

theorem passed_setValue {type : PbType} {v : PbVal} (h : n.testsKey = true → n.hasKey = false)
    (hkey : n.hasKey = true → type = .string → KnvKey.ofBytes v.str = n.key) : Passed n (n.setValue type v) := by
  unfold setValue
  split
  · next ht =>
    refine passed_setValueStr ?_ fun hk => hkey hk ht
    unfold keyAfterTest
    split
    · next htest =>
      rw [Bool.and_eq_true] at htest
      rw [h htest.1] at htest
      cases htest.2
    · rfl
  · exact setValueInt_rule (P := Passed n) (fun _ => ⟨.quiet rfl rfl rfl, rfl⟩) fun _ _ => ⟨.quiet rfl rfl rfl, rfl⟩

/-- **The value of a field becomes the value of a node**, whether they have been looked into or not. -/
theorem yields_takeValue (hu : u.getValue.2 = .ok g.val) (ht : u.type = g.type) (hv : n.isValid = true)
    (htag : n.tag = d.tag) (htype : n.type = d.type) : Yields (overwriteField g d) (n.takeValue u) := by
  unfold takeValue
  rw [hu]
  exact (yields_setValue hv htag htype ht).orFail _

theorem passed_takeValue (hu : u.getValue.2 = .ok g.val) (ht : u.type = g.type) (hkey : n.key = fieldKey g)
    (hlost : n.testsKey = true → n.hasKey = false) : Passed n (n.takeValue u) := by
  unfold takeValue
  rw [hu]
  have hset : Passed n (n.setValue u.type g.val) := passed_setValue hlost fun _ hstr => by
    rw [hkey, fieldKey, if_pos (ht.symm.trans hstr)]
  exact ⟨hset.told, hset.key⟩

/-! ### Keys -/

theorem hasKey_bytes (h : n.hasKey = true) : n.key.bytes ≠ [] := by
  rw [hasKey, Bool.and_eq_true] at h
  exact bne_iff_ne.mp h.2

/-- A node that has just been parsed keeps its key when its value is set. -/
theorem FromField.testsKey (h : FromField false f n) (hf : Genuine f) (ht : n.testsKey = true) : n.hasKey = false := by
  by_contra hkey
  rw [Bool.not_eq_false] at hkey
  obtain ⟨m, ms, hms, -⟩ := hf.key (h.key hf.norm ▸ hasKey_bytes hkey)
  rw [h.content_of_expanded hf.norm (testsKey_iff.mp ht).1] at hms
  cases hms

/-- A node that has been looked into keeps its key when its value is set, unless it has children. -/
theorem FromField.testsKey_opened (h : FromField false f n) (hf : Genuine f) (htag : ¬(f.tag = 1 ∧ pk = true)) (k' : Bool)
    (hlost : (contentOf f).2 = [] ∨ (fieldKey f).bytes = []) (ht : (n.innerExpand pk k').testsKey = true) :
    (n.innerExpand pk k').hasKey = false := by
  by_contra hkey
  rw [Bool.not_eq_false] at hkey
  have hbytes : (fieldKey f).bytes ≠ [] := by
    rw [← h.key hf.norm, ← (expandSame pk k' n).key]
    exact hasKey_bytes hkey
  obtain ⟨m, ms, hms, -⟩ := hf.key hbytes
  obtain ⟨hmetas, hchildren⟩ := h.opened hf htag k'
  rcases (testsKey_iff.mp ht).2 with hne | hnil
  · rw [hlost.resolve_right hbytes] at hchildren
    exact hne (List.forall₂_nil_left_iff.mp hchildren)
  · rw [hnil, hms] at hmetas
    cases hmetas

/-! ### A node that is being updated -/

/-- A child, and what identifies it. -/
def item (c : KnvNode) : (UInt32 × Bytes) × PbField := (c.childIdent, c.toField)

/-- How far an update of `n` has come: what the node is, and its metas and children so far. -/
structure Updating (n : KnvNode) (ms : List PbField) (is : List ((UInt32 × Bytes) × PbField)) (x : KnvNode) : Prop where
  shaped : Shaped x
  indexed : Indexed x
  role : SameRole n x
  key : x.key = n.key
  type : n.type = .string
  valid : n.isValid = true
  expanded : x.expanded = true
  led : n.hasKey = true → ∃ m l, x.metalist = m :: l ∧ m.tag = 1 ∧ m.plain = n.keyBytes
  metas : x.metalist.map toField = ms
  items : x.childlist.map item = is

/-- What is neither a list nor the index may change. -/
theorem Updating.touched {is : List ((UInt32 × Bytes) × PbField)} {y : KnvNode} (h : Updating n ms is x)
    (ht : Touched x y) (hht : y.ht = x.ht) : Updating n ms is y := by
  refine ⟨h.shaped.touched ht, h.indexed.of_same hht ht.childlist (ht.metalist ▸ h.indexed.metas) ht.tag,
    h.role.trans ht.role, ht.key.trans h.key, h.type, h.valid, ht.expanded.trans h.expanded, fun hk => ?_, ?_, ?_⟩
  · rw [ht.metalist]
    exact h.led hk
  · rw [ht.metalist, h.metas]
  · rw [ht.childlist, h.items]

/-- A function that ends with `finish` has done what it did before. -/
theorem Updating.finish {is : List ((UInt32 × Bytes) × PbField)} (h : Updating n ms is x) (o : ℤ) :
    Updating n ms is (x.finish o).node := h.touched (touched_finish x o) (ht_finish x o)

/-- **What an updated node is written as.** -/
theorem Updating.toField_of_not_folded {is : List ((UInt32 × Bytes) × PbField)} (h : Updating n ms is x)
    (hfold : x.isFolded = false) :
    x.toField = ⟨n.tag, .string, { str := encodeAll (ms ++ is.map Prod.snd) }⟩ := by
  have htype : x.type = .string := h.role.type.trans h.type
  have hhas : x.hasKey = n.hasKey := by rw [hasKey, hasKey, h.role.noKey, h.key]
  have hkey : x.keyBytes = n.keyBytes := by rw [keyBytes, keyBytes, hhas, keyField, keyField, h.key]
  have hmetas : x.keyBytes ++ plainAll x.hasKey x.metalist = encodeAll ms := by
    rw [← h.metas, ← plainAll_false_eq, hkey, hhas]
    cases hk : n.hasKey with
    | false => rw [keyBytes, hk, if_neg Bool.false_ne_true, List.nil_append]
    | true =>
      obtain ⟨m, l, hl, hm, hplain⟩ := h.led hk
      rw [hl, plainAll_cons, if_pos (by simp [hm]), ← hplain, plainAll_false_cons]
  have hchildren : plainAll false x.childlist = encodeAll (is.map Prod.snd) := by
    rw [← h.items, List.map_map, plainAll_false_eq]
    rfl
  rw [KnvNode.toField, plainVal_of_not_folded hfold, hmetas, hchildren, ← encodeAll_append, fieldOf, if_pos htype,
    h.role.tag, htype]
  rfl

theorem Updating.toField {is : List ((UInt32 × Bytes) × PbField)} (h : Updating n ms is x) (hne : x.childlist ≠ []) :
    x.toField = ⟨n.tag, .string, { str := encodeAll (ms ++ is.map Prod.snd) }⟩ := by
  refine h.toField_of_not_folded ?_
  rw [isFolded, h.role.type.trans h.type, h.expanded]
  cases hcs : x.childlist with
  | nil => exact absurd hcs hne
  | cons _ _ => rfl

theorem map_toField {b : Bool} {fs : List PbField} {l : List KnvNode} (h : List.Forall₂ (FromField b) fs l)
    (hn : ∀ f ∈ fs, f.norm = f) : l.map toField = fs := by
  induction h with
  | nil => rfl
  | @cons f c fs l hc _ ih =>
    rw [List.map_cons, hc.toField (hn f (List.mem_cons_self ..)), ih fun g hg => hn g (List.mem_cons_of_mem _ hg)]

theorem exists_fromField {b : Bool} {fs : List PbField} {l : List KnvNode} (h : List.Forall₂ (FromField b) fs l)
    (hc : c ∈ l) : ∃ f ∈ fs, FromField b f c := by
  induction h with
  | nil => exact absurd hc List.not_mem_nil
  | @cons f x fs l hx _ ih =>
    rcases List.mem_cons.mp hc with rfl | hc
    · exact ⟨f, List.mem_cons_self .., hx⟩
    · obtain ⟨g, hg, hgc⟩ := ih hc
      exact ⟨g, List.mem_cons_of_mem _ hg, hgc⟩

theorem nil_iff_nil {b : Bool} {fs : List PbField} {l : List KnvNode} (h : List.Forall₂ (FromField b) fs l) :
    l = [] ↔ fs = [] := by
  rw [← List.length_eq_zero_iff, ← List.length_eq_zero_iff, h.length_eq]

/-- The nodes of children with their keys. -/
theorem map_item {fs : List PbField} {l : List KnvNode} (h : List.Forall₂ (FromField false) fs l)
    (hn : ∀ f ∈ fs, f.norm = f) : l.map item = identified fs := by
  induction h with
  | nil => rfl
  | @cons f c fs l hc _ ih =>
    have hf := hn f (List.mem_cons_self ..)
    rw [List.map_cons, ih fun g hg => hn g (List.mem_cons_of_mem _ hg), item, hc.childIdent hf, hc.toField hf]
    rfl

/-- A canonical message is indexed when it has been looked into. -/
theorem FromField.indexed_opened (h : FromField k f n) (hf : Genuine f) (pk k' : Bool) : Indexed (n.innerExpand pk k') := by
  refine h.indexed.here.innerExpand h.shaped.here (fun hcut => ?_) k' (h.valid hf.ok)
  -- a canonical message ends correctly
  obtain ⟨-, -, -, -, hb, heom, -⟩ := hcut
  have hcanon := hf.canon
  rw [h.val hf.norm] at hb heom
  generalize f.val.str = s at hcanon hb heom
  cases hcanon with
  | leaf hs =>
    rw [hs] at hb
    cases hb
  | message _ hok _ =>
    rw [pbScan_encodeAll fun f hf => (hok f hf).1] at heom
    cases heom

/-- What an update starts from. -/
theorem updating_opened (h : FromField k f n) (hf : Genuine f) (htag : ¬(f.tag = 1 ∧ pk = true)) (ht : f.type = .string)
    (k' : Bool) : Updating n (contentOf f).1 ((n.innerExpand pk k').childlist.map item) (n.innerExpand pk k') := by
  have hsame := expandSame pk k' n
  obtain ⟨hmetas, -⟩ := h.opened hf htag k'
  have hgenuine : ∀ g ∈ (contentOf f).1, g.norm = g := fun g hg => (hf.below.1 g hg).1.norm
  refine ⟨h.shaped.innerExpand .., h.indexed_opened hf pk k', hsame.role, hsame.key, h.type.trans ht, h.valid hf.ok,
    innerExpand_expanded .., fun hk => ?_, map_toField hmetas hgenuine, rfl⟩
  cases k with
  | false =>
    obtain ⟨m, ms, hms, hm, henc⟩ := hf.key (h.key hf.norm ▸ hasKey_bytes hk)
    rw [hms] at hmetas hgenuine
    generalize (n.innerExpand pk k').metalist = l at hmetas
    cases hmetas with
    | @cons _ c _ l hc _ =>
      refine ⟨c, l, rfl, hc.tag.trans hm, ?_⟩
      rw [hc.plain (hgenuine m (List.mem_cons_self ..)), keyBytes, if_pos hk, keyField, h.key hf.norm, henc]
  | true => exact absurd (by rw [h.key_of_noKey]) (hasKey_bytes hk)

theorem toField_overwrite {m : KnvNode} (hs : Shape m) (htag : m.tag = f.tag) (hn : f.norm = f) (b : Bool) :
    (m.overwrite f.tag f.type (some f.val) b).toField = f := by
  obtain ⟨hms, hcs⟩ := nil_overwrite (t := f.tag) hs f.type (some f.val) b
  have hval : metaVal f.type (some f.val) = f.val := pick_of_norm hn
  rw [toField_leaf (isFolded_of_nil hms hcs), overwrite_eq, hval]
  have htag' : (if m.expanded then { m with metalist := [], childlist := [], expanded := b } else m).tag = f.tag := by
    split <;> exact htag
  exact (congrArg (fun t => PbField.norm ⟨t, f.type, f.val⟩) htag').trans hn

theorem metasFill_finish (h : MetasFill x) (o : ℤ) : MetasFill (x.finish o).node := by
  have ht := touched_finish x o
  exact ⟨by rw [ht.metalist, ht.metas]; exact h.leads, by rw [ht.metalist, ht.metas]; exact h.all⟩

/-- A meta that is there is overwritten. -/
theorem updating_overwrite {is : List ((UInt32 × Bytes) × PbField)} {m : KnvNode} (h : Updating n ms is x)
    (hfill : MetasFill x) (hnd : (ms.map (·.tag)).Nodup) (hm : m ∈ x.metalist) (htag : m.tag = f.tag) (hn : f.norm = f)
    (hne : f.tag ≠ 1) (b : Bool) : ∃ ms', put (·.tag) (fun s _ => some s) f ms = some ms' ∧
      Updating n ms' is (x.setMetaNode (m.overwrite f.tag f.type (some f.val) b)) ∧
        MetasFill (x.setMetaNode (m.overwrite f.tag f.type (some f.val) b)) := by
  have hs : Shape m := (h.shaped.metas m hm).here
  obtain ⟨m', hm'⟩ : ∃ m', m' = m.overwrite f.tag f.type (some f.val) b := ⟨_, rfl⟩
  have hrole : m'.self = m.self ∧ m'.tag = m.tag ∧ m'.noKey = m.noKey := by
    rw [hm', overwrite_eq]
    split <;> exact ⟨rfl, rfl, rfl⟩
  have hfield : m'.toField = f := hm' ▸ toField_overwrite hs htag hn b
  have hshaped : Shaped m' := hm' ▸ shaped_overwrite (h.shaped.metas m hm) ..
  rw [← hm']
  obtain ⟨i, hi⟩ := List.mem_iff_getElem?.mp hm
  have hset : (x.setMetaNode m').metalist = x.metalist.set i m' := replace_eq_set (nodup_metas h.shaped.here) hi hrole.1
  have hget : ms[i]? = some m.toField := by rw [← h.metas, List.getElem?_map, hi, Option.map_some]
  have hmem : ∀ y ∈ (x.setMetaNode m').metalist, y ∈ x.metalist ∨ y = m' := fun y hy =>
    List.mem_or_eq_of_mem_set (hset ▸ hy)
  have htags : (x.setMetaNode m').metalist.map (fun y => (y.self, y.tag)) = x.metalist.map fun y => (y.self, y.tag) := by
    rw [hset, List.map_set, hrole.1, hrole.2.1]
    obtain ⟨hlt, rfl⟩ := List.getElem?_eq_some_iff.mp hi
    refine List.ext_getElem (by simp) fun j _ hj => ?_
    rw [List.getElem_set]
    split
    · next hij =>
      subst hij
      rw [List.getElem_map]
    · rfl
  refine ⟨ms.set i f, ?_, ⟨h.shaped.setMetaNode hshaped ⟨m, hm, hrole.1.symm⟩,
    h.indexed.of_same rfl rfl (fun y hy => ?_) rfl, h.role.trans ⟨rfl, rfl, rfl, rfl⟩, h.key, h.type, h.valid,
    h.expanded, fun hk => ?_, ?_, h.items⟩, ?_⟩
  · exact put_of_getElem? hget htag hnd
  · exact (hmem y hy).elim (h.indexed.metas y) fun e => e ▸ hrole.2.2.trans (h.indexed.metas m hm)
  · -- the key is another meta
    obtain ⟨y, l, hl, hy, hplain⟩ := h.led hk
    rw [hset, hl]
    rw [hl] at hi
    cases i with
    | zero =>
      cases hi
      exact absurd (htag.symm.trans hy) hne
    | succ i => exact ⟨y, l.set i m', rfl, hy, hplain⟩
  · rw [hset, List.map_set, h.metas, hfield]
  · have hlist : ∀ a t, (∃ y ∈ (x.setMetaNode m').metalist, y.self = a ∧ y.tag = t) ↔
        ∃ y ∈ x.metalist, y.self = a ∧ y.tag = t := by
      intro a t
      have hpair : ∀ l : List KnvNode, (∃ y ∈ l, y.self = a ∧ y.tag = t) ↔ (a, t) ∈ l.map fun y => (y.self, y.tag) := by
        intro l
        simp [List.mem_map]
      rw [hpair, hpair, htags]
    refine ⟨fun _ t a ha => (hlist a t).mpr (hfill.leads (List.ne_nil_of_mem hm) t a ha), fun y hy => ?_⟩
    obtain ⟨z, hz, -, hzt⟩ := (hlist y.self y.tag).mp ⟨y, hy, rfl, rfl⟩
    exact hzt ▸ hfill.all z hz

/-- A meta that is not there comes to the end. -/
theorem updating_addMeta {is : List ((UInt32 × Bytes) × PbField)} (h : Updating n ms is x) (hfill : MetasFill x)
    (hnone : x.metaAt f.tag = none) (hn : f.norm = f) (hne : f.tag ≠ 1) :
    ∃ ms', put (·.tag) (fun s _ => some s) f ms = some ms' ∧
      Updating n ms' is (x.addMetaNode f.tag f.type (some f.val)) ∧ MetasFill (x.addMetaNode f.tag f.type (some f.val)) := by
  obtain ⟨y, hy⟩ : ∃ y, y = (initNode f.tag f.type (some f.val) true 0 true).at' x.slots := ⟨_, rfl⟩
  have hlist : (x.addMetaNode f.tag f.type (some f.val)).metalist = x.metalist ++ [y] := by
    rw [hy]
    exact if_neg hne
  have hfield : y.toField = f := hy ▸ toField_ofField hn 0 true x.slots
  have hytag : y.tag = f.tag := by rw [hy]; rfl
  have hyself : y.self = x.slots := by rw [hy]; rfl
  -- no meta has the tag
  have hfresh : ∀ z ∈ x.metalist, z.tag ≠ f.tag := by
    intro z hz htag
    obtain ⟨a, ha⟩ := Option.ne_none_iff_exists'.mp (htag ▸ hfill.all z hz)
    obtain ⟨w, hw, hself, -⟩ := hfill.leads (List.ne_nil_of_mem hz) _ a ha
    exact metaAt_ne_none_iff.mpr ⟨a, ha, w, hw, hself⟩ hnone
  have hmetas : ∀ t, (x.addMetaNode f.tag f.type (some f.val)).metas t =
      if t = f.tag then some y.self else if x.metalist.isEmpty then none else x.metas t := by
    intro t
    rw [hyself]
    show (if t = f.tag then _ else _) = _
    split
    · rfl
    · split <;> rfl
  refine ⟨ms ++ [f], put_of_forall_ne fun d hd => ?_, ⟨h.shaped.addMetaNode h.expanded ..,
    h.indexed.of_same rfl rfl (fun z hz => ?_) rfl, h.role.trans ⟨rfl, rfl, rfl, rfl⟩, h.key, h.type, h.valid,
    h.expanded, fun hk => ?_, ?_, h.items⟩,
    fun _ t a ha => ?_, fun z hz => ?_⟩
  · rw [← h.metas] at hd
    obtain ⟨z, hz, rfl⟩ := List.mem_map.mp hd
    exact hfresh z hz
  · rw [hlist] at hz
    rcases List.mem_append.mp hz with hz | hz
    · exact h.indexed.metas z hz
    · rw [List.mem_singleton.mp hz, hy]
      rfl
  · obtain ⟨m, l, hl, hm, hplain⟩ := h.led hk
    exact ⟨m, l ++ [y], by rw [hlist, hl]; rfl, hm, hplain⟩
  · rw [hlist, List.map_append, h.metas, List.map_cons, hfield, List.map_nil]
  · rw [hlist]
    rw [hmetas] at ha
    split at ha
    · next ht =>
      cases ha
      exact ⟨y, List.mem_append_right _ (List.mem_singleton_self y), rfl, hytag.trans ht.symm⟩
    split at ha
    · cases ha
    · next hne' =>
      obtain ⟨z, hz, hzt⟩ := hfill.leads (by simpa using hne') t a ha
      exact ⟨z, List.mem_append_left _ hz, hzt⟩
  · rw [hlist] at hz
    rw [hmetas]
    rcases List.mem_append.mp hz with hz | hz
    · rw [if_neg (hfresh z hz), if_neg (by simpa using List.ne_nil_of_mem hz)]
      exact hfill.all z hz
    · rw [List.mem_singleton.mp hz, if_pos hytag]
      exact Option.some_ne_none _

/-- **A turn of the loop over metas** puts a meta. -/
theorem updating_takeMeta {is : List ((UInt32 × Bytes) × PbField)} {m : KnvNode} (h : Updating n ms is x)
    (hfill : MetasFill x) (hnd : (ms.map (·.tag)).Nodup) (hm : FromField true f m) (hn : f.norm = f)
    (hmax : f.tag ≤ ucMaxMetaNum) (htag : 1 < f.tag) :
    (takeMeta pl m x).ret = .ok 0 ∧ htEvents (takeMeta pl m x).msgs = [] ∧
      (takeMeta pl m x).node.childlist = x.childlist ∧
      ∃ ms', put (·.tag) (fun s _ => some s) f ms = some ms' ∧ Updating n ms' is (takeMeta pl m x).node ∧
        MetasFill (takeMeta pl m x).node := by
  have hne : f.tag ≠ 1 := fun h1 => absurd (h1 ▸ htag) (by decide)
  unfold takeMeta
  rw [if_pos (hm.tag ▸ htag), hm.tag, hm.type, hm.val hn]
  have hdone : ∀ o : Out, o = x.setMetaInner f.tag f.type (some f.val) true pl → o.ret = .ok 0 ∧ htEvents o.msgs = [] ∧
      o.node.childlist = x.childlist ∧
      ∃ ms', put (·.tag) (fun s _ => some s) f ms = some ms' ∧ Updating n ms' is o.node ∧ MetasFill o.node := by
    intro o ho
    subst ho
    refine setMetaInner_rule (P := fun o => o.ret = .ok 0 ∧ htEvents o.msgs = [] ∧
      o.node.childlist = x.childlist ∧
      ∃ ms', put (·.tag) (fun s _ => some s) f ms = some ms' ∧ Updating n ms' is o.node ∧ MetasFill o.node)
      (fun hbad => ?_) fun _ _ _ x' hx' => ?_
    · exfalso
      rcases hbad with hbad | hbad | hbad
      · rw [isValid, h.role.tag] at hbad
        exact Bool.false_ne_true (hbad.symm.trans h.valid)
      · exact hbad (h.role.type.trans h.type)
      · exact absurd hmax (UInt32.not_le.mpr hbad)
    · rw [innerExpand_of_expanded h.expanded] at hx'
      subst hx'
      refine ⟨fun m₀ hm₀ => ⟨rfl, rfl, (touched_finish _ _).childlist, ?_⟩,
        fun hnone => ⟨rfl, rfl, (touched_finish _ _).childlist, ?_⟩⟩
      · obtain ⟨hlist, hlead, hmem⟩ := metaAt_eq_some hm₀
        obtain ⟨y, hy, hself, hyt⟩ := hfill.leads hlist _ _ hlead
        have hym := List.inj_on_of_nodup_map (nodup_metas h.shaped.here) hy hmem hself
        subst hym
        obtain ⟨ms', hput, hup, hfill'⟩ := updating_overwrite h hfill hnd hmem hyt hn hne _
        exact ⟨ms', hput, hup.finish _, metasFill_finish hfill' _⟩
      · obtain ⟨ms', hput, hup, hfill'⟩ := updating_addMeta h hfill hnone hn hne
        exact ⟨ms', hput, hup.finish _, metasFill_finish hfill' _⟩
  obtain ⟨hret, hrest⟩ := hdone _ rfl
  exact ⟨by rw [orFail, hret]; rfl, hrest⟩

/-! ### Children -/

/-- At the last level a tag is dropped. -/
theorem updating_dropTag {is : List ((UInt32 × Bytes) × PbField)} (h : Updating n ms is x) (t : UInt32) :
    htEvents (dropTag pl t x).msgs = [] ∧ Updating n ms (is.filter fun i => i.2.tag ≠ t) (dropTag pl t x).node := by
  have hv : x.isValid = true := by
    rw [isValid, h.role.tag]
    exact h.valid
  have hitems : (x.childlist.filter fun c => c.tag ≠ t).map item = is.filter fun i => i.2.tag ≠ t := by
    rw [← h.items, List.filter_map]
    rfl
  unfold dropTag removeChildrenByTag
  rw [if_neg (by simp [hv]), innerExpand_of_expanded h.expanded]
  simp only
  obtain ⟨matched, hmatched⟩ : ∃ matched, matched = x.childlist.filter fun c => c.tag = t := ⟨_, rfl⟩
  rw [← hmatched]
  split
  · next hnone =>
    rw [List.isEmpty_iff, hmatched, List.filter_eq_nil_iff] at hnone
    have hall : (x.childlist.filter fun c => c.tag ≠ t) = x.childlist :=
      List.filter_eq_self.mpr fun c hc => by simpa using hnone c hc
    refine ⟨rfl, ?_⟩
    rw [← hitems, hall, h.items]
    exact h
  · refine ⟨rfl, Updating.finish ?_ _⟩
    have hnd := h.shaped.here.nodup_children
    have hsplit : x.childAddrs.Perm (matched.map (·.self) ++ (x.childlist.filter fun c => c.tag ≠ t).map (·.self)) := by
      rw [hmatched, childAddrs, ← List.map_append]
      have hperm := List.filter_append_perm (fun c : KnvNode => decide (c.tag = t)) x.childlist
      simpa using (hperm.symm.map (·.self))
    have hrem := agrees_foldl_remove matched x.ht _
      (fun c hc => look_child hnd (List.mem_filter.mp (hmatched ▸ hc)).1) (h.indexed.ht.perm hsplit)
    refine ⟨h.shaped.of_sublist (fun hf => absurd h.expanded (by simp [show x.expanded = false from hf]))
      (List.Sublist.refl _) List.filter_sublist rfl h.shaped.here.evaluated,
      h.indexed.fewer h.shaped.here _ List.filter_sublist hrem, h.role.trans ⟨rfl, rfl, rfl, rfl⟩, h.key, h.type, h.valid,
      h.expanded, h.led, h.metas, hitems⟩

theorem val_of_string (hn : f.norm = f) (ht : f.type = .string) : f.val = { str := f.val.str } := by
  rw [PbField.norm, ht] at hn
  exact (congrArg PbField.val hn).symm

/-- A copy of a node that has just been parsed is another one. -/
theorem FromField.innerDuplicate (h : FromField k g s) (hg : Genuine g)
    (k' : Bool) : s.innerDuplicate k' = .ok (ofField (sized g) k') := by
  have heval := evaluateSize_of_nonneg h.shaped.here.evaluated
  have hval := h.val hg.norm
  have hsz : s.evalSz.toNat = g.encode.length ∧ s.evalValSz = if g.type = .string then (g.val.str.length : ℤ) else 0 := by
    obtain ⟨a, rfl⟩ := h
    have hpos := length_encode_pos' g
    refine ⟨?_, ?_⟩
    · show ((if 0 < g.encode.length then g.encode.length else _ : ℕ) : ℤ).toNat = _
      rw [if_pos hpos, Int.toNat_natCast]
    · simp only [at', ofField, sized, initNode, if_true, pick_of_norm hg.norm]
  unfold KnvNode.innerDuplicate
  simp only [heval, h.tag, h.type, hsz.1, hsz.2]
  rw [hval]
  split
  · next hempty =>
    -- an empty string is written to be copied
    obtain ⟨ht, hstr, -⟩ := hempty
    have hlen := length_encode_str g.tag g.val.str
    have hgval : g.val = { str := g.val.str } := val_of_string hg.norm ht
    have hg' : (⟨g.tag, .string, { str := g.val.str }⟩ : PbField) = g := by
      rw [← hgval, ← ht]
    rw [hg', hstr] at hlen
    have hroom : s.val.str.length < Memory.allocSize g.encode.length := by
      have hle := Memory.le_allocSize (Nat.le_trans hlen.2 (by decide))
      rw [hval, hstr]
      exact Nat.lt_of_lt_of_le hlen.1 hle
    have hser : s.serialize (Memory.allocSize g.encode.length) false = .ok s.val.str := by
      have hv := h.valid hg.ok
      have hfold := isFolded_of_nil h.nil.1 h.nil.2
      have hty := h.type.trans ht
      obtain ⟨d, ms, cs⟩ := s
      rw [serialize, if_neg (by simp [hv]), if_pos (by simp [hfold]), if_neg Bool.false_ne_true,
        if_neg (not_not_intro hty), if_pos hroom]
    simp only [hser]
    rw [hval, hstr, if_pos ht, if_neg (by simp)]
    have hgval' : ({ str := [] } : PbVal) = g.val := by rw [hgval, hstr]
    rw [hgval']
    rfl
  · rfl

/-- A child comes to the end. -/
theorem updating_insert {is : List ((UInt32 × Bytes) × PbField)} (h : Updating n ms is x) (hs : FromField k g s)
    (hg : Genuine g) : (innerInsertChild s false true true x).ret = .ok 0 ∧
      htEvents (innerInsertChild s false true true x).msgs = [] ∧
      Updating n ms (is ++ [(ident g, g)]) (innerInsertChild s false true true x).node ∧
      ∀ c ∈ (innerInsertChild s false true true x).node.childlist, c ∈ x.childlist ∨ c.childIdent = ident g := by
  have hv : x.isValid = true := by
    rw [isValid, h.role.tag]
    exact h.valid
  have hlink := hs.innerDuplicate hg false
  have hshaped : Shaped (ofField (sized g) false) := shaped_initNode ..
  have heval : (ofField (sized g) false).evaluateSize = ofField (sized g) false :=
    evaluateSize_of_nonneg hshaped.here.evaluated
  have hdone : innerInsertChild s false true true x =
      (x.linkChild (ofField (sized g) false) true).finish (ofField (sized g) false).evalSz := by
    unfold innerInsertChild
    simp only [Bool.not_true, hlink, heval, ite_self, Bool.false_eq_true, if_false]
  rw [hdone]
  have hfrom : FromField false g ((ofField (sized g) false).at' x.slots) := ⟨_, rfl⟩
  refine ⟨rfl, rfl, Updating.finish ?_ _, fun c hc => ?_⟩
  swap
  · rw [(touched_finish _ _).childlist] at hc
    rcases List.mem_append.mp (show c ∈ x.childlist ++ [(ofField (sized g) false).at' x.slots] from hc) with hc | hc
    · exact .inl hc
    · exact .inr (List.mem_singleton.mp hc ▸ hfrom.childIdent hg.norm)
  refine ⟨h.shaped.linkChild h.expanded hshaped true, h.indexed.linkChild h.shaped.here hv _ true,
    h.role.trans ⟨rfl, rfl, rfl, rfl⟩, h.key, h.type, h.valid, h.expanded, h.led, h.metas, ?_⟩
  show (x.childlist ++ [(ofField (sized g) false).at' x.slots]).map item = _
  rw [List.map_append, h.items, List.map_cons, item, hfrom.childIdent hg.norm, hfrom.toField hg.norm]
  rfl

/-- A child that has changed, and is told of. -/
theorem Updating.hear {is : List ((UInt32 × Bytes) × PbField)} {o : Out} {i : ℕ} (h : Updating n ms is x)
    (hc : x.childlist[i]? = some c) (hrole : SameRole c o.node) (hs : Shaped o.node) (hpass : Passed c o) :
    htEvents ((x.setSlot (.ofChild i) o.node).handleAll o.node.self o.msgs).2 = [] ∧
      Updating n ms (is.set i (c.childIdent, o.node.toField))
        ((x.setSlot (.ofChild i) o.node).handleAll o.node.self o.msgs).1 ∧
      ∀ y ∈ ((x.setSlot (.ofChild i) o.node).handleAll o.node.self o.msgs).1.childlist,
        y ∈ x.childlist ∨ y.childIdent = c.childIdent := by
  have ht := touched_handleAll o.node.self o.msgs (x.setSlot (.ofChild i) o.node)
  have hident : o.node.childIdent = c.childIdent := by rw [childIdent, hrole.tag, hpass.key, childIdent]
  refine ⟨(ht_handleAll ..).2, ⟨(h.shaped.setSlot (show x.slot (.ofChild i) = some c from hc) hs hrole.self).touched ht,
    h.indexed.hear h.shaped.here hc hrole.self hpass.told,
    h.role.trans (.trans (show SameRole x (x.setSlot (.ofChild i) o.node) from ⟨rfl, rfl, rfl, rfl⟩) ht.role),
    ht.key.trans h.key, h.type, h.valid, ht.expanded.trans h.expanded,
    fun hk => ?_, ?_, ?_⟩, fun y hy => ?_⟩
  · rw [ht.metalist]
    exact h.led hk
  · rw [ht.metalist]
    exact h.metas
  · rw [ht.childlist, setSlot_ofChild, List.map_set, h.items, item, hident]
  · rw [ht.childlist, setSlot_ofChild] at hy
    exact (List.mem_or_eq_of_mem_set hy).imp id fun e : y = o.node => e ▸ hident

/-- **A turn of the loop over children** puts a child, above the last level. -/
theorem updating_takeChild {is : List ((UInt32 × Bytes) × PbField)} (update : KnvNode → Place → KnvNode → Out)
    (join : PbField → PbField → Option PbField) (h : Updating n ms is x) (hs : FromField false g s) (hg : Genuine g)
    (hnd : (is.map (·.1)).Nodup) (hup : ∀ c ∈ x.childlist, c.childIdent = ident g →
      Yields (join g c.toField) (update s ⟨x.key.bytes != [], false⟩ c) ∧
      (∀ r, join g c.toField = some r → Passed c (update s ⟨x.key.bytes != [], false⟩ c)) ∧
      SameRole c (update s ⟨x.key.bytes != [], false⟩ c).node ∧ Shaped (update s ⟨x.key.bytes != [], false⟩ c).node) :
    (∀ is', put (·.1) (joinItem join) (ident g, g) is = some is' →
      (takeChild update false pl s x).ret = .ok 0 ∧ htEvents (takeChild update false pl s x).msgs = [] ∧
        Updating n ms is' (takeChild update false pl s x).node ∧
        ∀ c ∈ (takeChild update false pl s x).node.childlist, c ∈ x.childlist ∨ c.childIdent = ident g) ∧
    (put (·.1) (joinItem join) (ident g, g) is = none → ∃ e, (takeChild update false pl s x).ret = .error e) := by
  have hids : s.childIdent = ident g := hs.childIdent hg.norm
  have hnodup := h.shaped.here.nodup_children
  unfold takeChild matchOf
  rw [if_neg Bool.false_ne_true]
  cases hget : x.ht.get x.look s.tag s.key.bytes with
  | none =>
    -- nobody has the tag and the key
    have hnone := h.indexed.ht.get_eq_none_iff.mp hget
    have hput : put (·.1) (joinItem join) (ident g, g) is = some (is ++ [(ident g, g)]) := by
      refine put_of_forall_ne fun d hd => ?_
      rw [← h.items] at hd
      obtain ⟨c, hc, rfl⟩ := List.mem_map.mp hd
      have hne := hnone c.self (List.mem_map.mpr ⟨c, hc, rfl⟩)
      rw [look_child hnodup hc] at hne
      exact fun heq => hne (heq.trans hids.symm)
    rw [hput]
    obtain ⟨hret, hquiet, hnext, hframe⟩ := updating_insert h hs hg
    refine ⟨fun is' his => ?_, fun hbad => by cases hbad⟩
    cases his
    exact ⟨by rw [orFail, hret]; rfl, hquiet, hnext, hframe⟩
  | some a =>
    obtain ⟨ha, hlook⟩ := h.indexed.ht.of_get hget
    obtain ⟨c, hc, rfl⟩ := List.mem_map.mp ha
    rw [look_child hnodup hc] at hlook
    have hident : c.childIdent = ident g := Eq.trans hlook hids
    obtain ⟨i, hi⟩ := List.mem_iff_getElem?.mp hc
    obtain ⟨hyield, hpass, hrole, hshaped⟩ := hup c hc hident
    generalize ho : update s ⟨x.key.bytes != [], false⟩ c = o at hyield hpass hrole hshaped
    have hchild := @Shape.onChild x c i h.shaped.here hi (update s) pl o ho
    have hitem : is[i]? = some (item c) := by rw [← h.items, List.getElem?_map, hi, Option.map_some]
    rw [put_of_getElem? hitem hident hnd]
    simp only [hchild]
    cases hj : join g c.toField with
    | none =>
      obtain ⟨e, he⟩ := hyield.fail hj
      have hnone : joinItem join (ident g, g) (item c) = none := by rw [joinItem, item, hj]; rfl
      rw [hnone]
      refine ⟨fun is' his => ?_, fun _ => ⟨⟨-4, e.errmsg⟩, ?_⟩⟩
      · cases his
      · rw [orFail, he]
        rfl
    | some r =>
      obtain ⟨hret, hfield⟩ := hyield.ok r hj
      obtain ⟨hquiet, hnext, hframe⟩ := h.hear hi hrole hshaped (hpass r hj)
      have hsome : joinItem join (ident g, g) (item c) = some (c.childIdent, r) := by rw [joinItem, item, hj]; rfl
      rw [hsome, Option.map_some]
      refine ⟨fun is' his => ?_, fun hbad => by cases hbad⟩
      cases his
      rw [hfield] at hnext
      exact ⟨by rw [orFail, hret]; rfl, hquiet, hnext, fun y hy => (hframe y hy).imp id fun e => e.trans hident⟩

/-! ### Loops -/

/-- **The loop over metas** merges the metas. -/
theorem updating_takeMetas {is : List ((UInt32 × Bytes) × PbField)} {us : List PbField} {l : List KnvNode}
    (h : Updating n ms is x) (hfill : MetasFill x) (hnd : (ms.map (·.tag)).Nodup) (hl : List.Forall₂ (FromField true) us l)
    (hus : ∀ f ∈ us, f.norm = f ∧ f.tag ≤ ucMaxMetaNum) :
    (Outcome.each 0 (takeMeta pl) l x).ret = .ok 0 ∧ htEvents (Outcome.each 0 (takeMeta pl) l x).msgs = [] ∧
      (Outcome.each 0 (takeMeta pl) l x).node.childlist = x.childlist ∧
      ∃ ms', mergeMetas us ms = some ms' ∧ Updating n ms' is (Outcome.each 0 (takeMeta pl) l x).node := by
  induction hl generalizing ms x with
  | nil => exact ⟨rfl, rfl, rfl, ms, rfl, h⟩
  | @cons f m us l hm _ ih =>
    obtain ⟨hn, hmax⟩ := hus f (List.mem_cons_self ..)
    have hrest : ∀ f ∈ us, f.norm = f ∧ f.tag ≤ ucMaxMetaNum := fun f hf => hus f (List.mem_cons_of_mem _ hf)
    rw [Outcome.each]
    by_cases htag : 1 < f.tag
    · obtain ⟨hret, hquiet, hcs, ms', hput, hnext, hfill'⟩ : (takeMeta pl m x).ret = .ok 0 ∧ _ ∧ _ ∧ ∃ ms', _ ∧ _ ∧ _ :=
        updating_takeMeta h hfill hnd hm hn hmax htag
      have hnd' : (ms'.map (·.tag)).Nodup := nodup_put (fun s d r _ hr => by cases hr; rfl) hput hnd
      obtain ⟨hret', hquiet', hcs', ms'', hmerge, hnext'⟩ := ih hnext hfill' hnd' hrest
      rw [Outcome.next_ok hret]
      refine ⟨hret', ?_, hcs'.trans hcs, ms'', ?_, hnext'⟩
      · rw [htEvents_append, hquiet, hquiet']
        rfl
      · rw [mergeMetas, List.filter_cons_of_pos (by simpa using htag), putAll_cons, hput]
        exact hmerge
    · -- the key is skipped
      have hskip : takeMeta pl m x = ⟨x, [], .ok 0⟩ := by
        unfold takeMeta
        rw [if_neg (hm.tag ▸ htag)]
      obtain ⟨hret', hquiet', hcs', ms'', hmerge, hnext'⟩ := ih h hfill hnd hrest
      rw [hskip, Outcome.next_ok rfl]
      refine ⟨hret', hquiet', hcs', ms'', ?_, hnext'⟩
      rw [mergeMetas, List.filter_cons_of_neg (by simpa using htag)]
      exact hmerge

/-- **The loop over tags** drops the children with the tags. -/
theorem updating_dropTags (tags : List UInt32) : ∀ {is : List ((UInt32 × Bytes) × PbField)} {x : KnvNode},
    Updating n ms is x →
    (Outcome.each 0 (dropTag pl) tags x).ret = .ok 0 ∧ htEvents (Outcome.each 0 (dropTag pl) tags x).msgs = [] ∧
      Updating n ms (is.filter fun i => i.2.tag ∉ tags) (Outcome.each 0 (dropTag pl) tags x).node := by
  induction tags with
  | nil =>
    intro is x h
    refine ⟨rfl, rfl, ?_⟩
    rw [List.filter_eq_self.mpr fun i _ => by simp]
    exact h
  | cons t tags ih =>
    intro is x h
    obtain ⟨hquiet, hnext⟩ : _ ∧ Updating n ms _ (dropTag pl t x).node := updating_dropTag h t
    obtain ⟨hret', hquiet', hnext'⟩ := ih hnext
    rw [Outcome.each, Outcome.next_ok (show (dropTag pl t x).ret = .ok 0 from rfl)]
    refine ⟨hret', ?_, ?_⟩
    · rw [htEvents_append, hquiet, hquiet']
      rfl
    · rw [List.filter_filter] at hnext'
      have hboth : (fun i : (UInt32 × Bytes) × PbField => decide (i.2.tag ∉ t :: tags)) =
          fun i => decide (i.2.tag ∉ tags) && decide (i.2.tag ≠ t) := by
        funext i
        simp [Bool.and_comm]
      rw [hboth]
      exact hnext'

/-- **The loop over children at the last level** copies the children. -/
theorem updating_copies {update : KnvNode → Place → KnvNode → Out} {us : List PbField} {l : List KnvNode}
    (hl : List.Forall₂ (FromField k) us l) (hus : ∀ f ∈ us, Genuine f) :
    ∀ {is : List ((UInt32 × Bytes) × PbField)} {x : KnvNode}, Updating n ms is x →
    (Outcome.each 0 (takeChild update true pl) l x).ret = .ok 0 ∧
      htEvents (Outcome.each 0 (takeChild update true pl) l x).msgs = [] ∧
      Updating n ms (is ++ identified us) (Outcome.each 0 (takeChild update true pl) l x).node := by
  induction hl with
  | nil =>
    intro is x h
    refine ⟨rfl, rfl, ?_⟩
    rw [identified, List.map_nil, List.append_nil]
    exact h
  | @cons f s us l hs _ ih =>
    intro is x h
    obtain ⟨hret, hquiet, hnext, -⟩ := updating_insert h hs (hus f (List.mem_cons_self ..))
    obtain ⟨hret', hquiet', hnext'⟩ := ih (fun g hg => hus g (List.mem_cons_of_mem _ hg)) hnext
    have hone : takeChild update true pl s x = orFail (-5) (innerInsertChild s false true true x) := rfl
    have hok : (takeChild update true pl s x).ret = .ok 0 := by
      rw [hone, orFail, hret]
      rfl
    rw [Outcome.each, Outcome.next_ok hok, hone]
    refine ⟨hret', ?_, ?_⟩
    · rw [htEvents_append]
      show htEvents (innerInsertChild s false true true x).msgs ++ _ = []
      rw [hquiet]
      exact hquiet'
    · rw [identified, List.map_cons, List.append_cons]
      exact hnext'

/-- **The loop over children above the last level** merges the children. -/
theorem updating_takeChildren {update : KnvNode → Place → KnvNode → Out} {join : PbField → PbField → Option PbField}
    {us ds : List PbField} {l : List KnvNode} (hl : List.Forall₂ (FromField false) us l) (hus : ∀ f ∈ us, Genuine f)
    (hup : ∀ g ∈ us, ∀ d ∈ ds, ∀ s c, FromField false g s → FromField false d c → c.childIdent = ident g →
      Yields (join g d) (update s ⟨n.key.bytes != [], false⟩ c) ∧
      (∀ r, join g d = some r → Passed c (update s ⟨n.key.bytes != [], false⟩ c)) ∧
      SameRole c (update s ⟨n.key.bytes != [], false⟩ c).node ∧ Shaped (update s ⟨n.key.bytes != [], false⟩ c).node)
    (hnd : (us.map ident).Nodup) (hds : ∀ d ∈ ds, d.norm = d) :
    ∀ {is : List ((UInt32 × Bytes) × PbField)} {x : KnvNode}, Updating n ms is x → (is.map (·.1)).Nodup →
      (∀ c ∈ x.childlist, ∀ g ∈ us, c.childIdent = ident g → ∃ d ∈ ds, FromField false d c) →
      (∀ is', putAll (·.1) (joinItem join) (identified us) is = some is' →
        (Outcome.each 0 (takeChild update false pl) l x).ret = .ok 0 ∧
          htEvents (Outcome.each 0 (takeChild update false pl) l x).msgs = [] ∧
          Updating n ms is' (Outcome.each 0 (takeChild update false pl) l x).node) ∧
      (putAll (·.1) (joinItem join) (identified us) is = none →
        ∃ e, (Outcome.each 0 (takeChild update false pl) l x).ret = .error e) := by
  induction hl with
  | nil =>
    intro is x h _ _
    refine ⟨fun is' his => ?_, fun hbad => ?_⟩
    · cases his
      exact ⟨rfl, rfl, h⟩
    · cases hbad
  | @cons g s us l hs _ ih =>
    intro is x h hisnd hfrom
    rw [List.map_cons, List.nodup_cons] at hnd
    have hfirst : (∀ is', put (·.1) (joinItem join) (ident g, g) is = some is' → _ ∧ _ ∧
        Updating n ms is' (takeChild update false pl s x).node ∧ _) ∧ _ :=
      updating_takeChild update join h hs (hus g (List.mem_cons_self ..)) hisnd fun c hc hident => by
        obtain ⟨d, hd, hcd⟩ := hfrom c hc g (List.mem_cons_self ..) hident
        rw [h.key, hcd.toField (hds d hd)]
        exact hup g (List.mem_cons_self ..) d hd s c hs hcd hident
    have hcons : putAll (·.1) (joinItem join) (identified (g :: us)) is =
        (put (·.1) (joinItem join) (ident g, g) is).bind (putAll (·.1) (joinItem join) (identified us)) := rfl
    rw [Outcome.each, hcons]
    cases hput : put (·.1) (joinItem join) (ident g, g) is with
    | none =>
      obtain ⟨e, he⟩ := hfirst.2 hput
      rw [Outcome.next_error he, Option.bind_none]
      refine ⟨fun is' his => ?_, fun _ => ⟨e, rfl⟩⟩
      cases his
    | some is₁ =>
      obtain ⟨hret, hquiet, hnext, hframe⟩ := hfirst.1 is₁ hput
      have hnd₁ : (is₁.map (·.1)).Nodup := nodup_put (fun s d r hsd hr => by
        obtain ⟨r', -, rfl⟩ := Option.map_eq_some_iff.mp hr
        exact hsd) hput hisnd
      obtain ⟨hrest, hrest'⟩ := ih (fun f hf => hus f (List.mem_cons_of_mem _ hf))
        (fun g' hg' => hup g' (List.mem_cons_of_mem _ hg')) hnd.2 hnext hnd₁ fun c hc g' hg' hident => by
          rcases hframe c hc with hold | hnew
          · exact hfrom c hold g' (List.mem_cons_of_mem _ hg') hident
          · exact absurd (List.mem_map.mpr ⟨g', hg', hident.symm.trans hnew⟩) hnd.1
      rw [Outcome.next_ok hret, Option.bind_some]
      refine ⟨fun is' his => ?_, hrest'⟩
      obtain ⟨hret', hquiet', hnext'⟩ := hrest is' his
      refine ⟨hret', ?_, hnext'⟩
      rw [htEvents_append, hquiet, hquiet']
      rfl

/-! ### Levels -/

theorem Part.shaped {u : KnvNode} (h : Part u q pl x) (hu : Shaped u) : Shaped x := by
  induction h with
  | root => exact hu
  | opened k _ ih => exact ih.innerExpand ..
  | child _ hs ih => exact ih.children _ hs

/-- An update leaves a node in its place. -/
theorem role_updateSubTreeLevels (order : List UInt32 → List UInt32) (levels : ℕ) (uk : Bool) (pl : Place) (hu : Shaped u)
    (hn : Shaped n) : SameRole n (updateSubTreeLevels order levels uk u pl n).node ∧
      Shaped (updateSubTreeLevels order levels uk u pl n).node := by
  have hwalk := @updateSubTreeLevels_walk order (fun _ => True) False u ⟨uk, false⟩ (fun _ => trivial) levels ⟨uk, false⟩ u
    pl n .root fun h => h.elim
  exact ⟨hwalk.role, hwalk.shaped (fun _ _ hx => Part.shaped hx hu) hn⟩

/-- Another node is left alone. -/
theorem updateSubTreeLevels_other (order : List UInt32 → List UInt32) (levels : ℕ) (uk : Bool) (pl : Place)
    (hu : FromField false g u) (hg : Genuine g) (hn : FromField false d n) (hd : Genuine d) (hne : ¬SameField g d) :
    mergeField levels g d = some d ∧ updateSubTreeLevels order levels uk u pl n = ⟨n, [], .ok 0⟩ := by
  have h0 : u.tag ≠ 0 := bne_iff_ne.mp (hu.valid hg.ok)
  have hother : n.tag ≠ u.tag ∨ n.key ≠ u.key := by
    rw [hn.tag, hu.tag, hn.key hd.norm, hu.key hg.norm, ← not_and_or]
    exact hne
  cases levels with
  | zero =>
    rw [mergeField, if_neg hne, updateSubTreeLevels, if_neg h0, if_pos hother]
    exact ⟨rfl, rfl⟩
  | succ levels =>
    rw [mergeField, if_pos hne, updateSubTreeLevels, if_neg h0, if_pos hother]
    exact ⟨rfl, rfl⟩

theorem ne_one_of_child (h : ¬f.tag ≤ ucMaxMetaNum) (pk : Bool) : ¬(f.tag = 1 ∧ pk = true) :=
  fun h1 => h (h1.1 ▸ by decide)

/-- The end of an update of a node by content. -/
theorem Updating.yields {is : List ((UInt32 × Bytes) × PbField)} {o : Out} (h : Updating n ms is o.node)
    (hret : o.ret = .ok 0) (hquiet : htEvents o.msgs = []) (hne : is ≠ []) (htag : n.tag = d.tag) (ht : d.type = .string) :
    Yields (some { d with val := { str := encodeAll (ms ++ is.map Prod.snd) } }) o ∧ Passed n o := by
  have hcs : o.node.childlist ≠ [] := by
    intro hnil
    have hitems := h.items
    rw [hnil] at hitems
    exact hne hitems.symm
  refine ⟨.some hret ?_, .quiet hquiet h.role.tag (congrArg _ h.key), congrArg _ h.key⟩
  rw [h.toField hcs, htag, ← ht]

/-- **Content is merged into content.** -/
theorem merged_takeContent {order : List UInt32 → List UInt32} (horder : ∀ l t, t ∈ order l ↔ t ∈ l) {levels : ℕ}
    (update : KnvNode → Place → KnvNode → Out) {last : Bool} (hlast : last = (levels == 0)) (hu : FromField false g u)
    (hg : Genuine g) (hgtag : ¬(g.tag = 1 ∧ k = true)) (hn : FromField false d n) (hd : Genuine d)
    (hdtag : ¬(d.tag = 1 ∧ pl.parentKeyed = true)) (hgne : (contentOf g).2 ≠ []) (hdne : (contentOf d).2 ≠ [])
    (hsame : SameField g d) (hmerge : Mergeable (levels + 1) g d)
    (hup : levels ≠ 0 → ∀ s' ∈ (contentOf g).2, ∀ c' ∈ (contentOf d).2, ∀ s c, FromField false s' s → FromField false c' c →
      Yields (mergeField levels s' c') (update s ⟨n.key.bytes != [], false⟩ c) ∧
      (∀ r, mergeField levels s' c' = some r → Passed c (update s ⟨n.key.bytes != [], false⟩ c)) ∧
      SameRole c (update s ⟨n.key.bytes != [], false⟩ c).node ∧ Shaped (update s ⟨n.key.bytes != [], false⟩ c).node) :
    Yields (mergeField (levels + 1) g d)
      (takeContent order update last pl (u.innerExpand k last) (n.innerExpand pl.parentKeyed last)) ∧
    ∀ r, mergeField (levels + 1) g d = some r → Passed n
      (takeContent order update last pl (u.innerExpand k last) (n.innerExpand pl.parentKeyed last)) := by
  have hdtype := type_of_content hdne
  obtain ⟨humetas, huchildren⟩ := hu.opened hg hgtag last
  obtain ⟨-, hnchildren⟩ := hn.opened hd hdtag last
  obtain ⟨hgms, hgcs⟩ := hg.below
  obtain ⟨-, hdcs⟩ := hd.below
  have hstart := updating_opened hn hd hdtag hdtype last
  have hfill : MetasFill (n.innerExpand pl.parentKeyed last) := by
    cases hexp : n.expanded with
    | false => exact metasFill_innerExpand hexp _ _
    | true =>
      have hnone := hn.content_of_expanded hd.norm hexp
      rw [hnone] at hdne
      exact absurd rfl hdne
  obtain ⟨hnd, hinner⟩ := hmerge hgne hdne
  obtain ⟨hret, hquiet, hcs, ms, hms, hafter⟩ : _ ∧ _ ∧ _ ∧ ∃ ms, mergeMetas (contentOf g).1 (contentOf d).1 = some ms ∧ _ :=
    updating_takeMetas hstart hfill hnd humetas fun f hf => ⟨(hgms f hf).1.norm, (hgms f hf).2⟩
  have hfield : mergeField (levels + 1) g d = (if levels = 0 then some (replaceChildren (contentOf g).2 (contentOf d).2)
      else (mergeItems (mergeField levels) (identified (contentOf g).2) (identified (contentOf d).2)).map
        (·.map Prod.snd)).map fun cs => { d with val := { str := encodeAll (ms ++ cs) } } := by
    rw [mergeField, if_neg (not_not_intro hsame), if_neg (by simp [hgne, hdne]), hms]
    rfl
  rw [hfield]
  unfold takeContent
  generalize Outcome.each 0 (takeMeta pl) (u.innerExpand k last).metalist (n.innerExpand pl.parentKeyed last) = A
    at hret hquiet hcs hafter
  rw [Outcome.next_ok hret]
  cases last with
  | true =>
    have h0 : levels = 0 := by simpa using hlast.symm
    subst h0
    have htags : (u.innerExpand k true).childlist.map (·.tag) = (contentOf g).2.map (·.tag) := by
      rw [← map_toField huchildren fun f hf => (hgcs f hf).1.norm, List.map_map]
      rfl
    obtain ⟨hret₁, hquiet₁, hdropped⟩ : _ ∧ _ ∧ Updating n ms _
        (Outcome.each 0 (dropTag pl) (order ((u.innerExpand k true).childlist.map (·.tag))) A.node).node :=
      updating_dropTags _ hafter
    rw [if_pos rfl, if_pos rfl]
    generalize Outcome.each 0 (dropTag pl) (order ((u.innerExpand k true).childlist.map (·.tag))) A.node = B
      at hret₁ hquiet₁ hdropped
    obtain ⟨hret₂, hquiet₂, hdone⟩ :
        (Outcome.each 0 (takeChild update true pl) (u.innerExpand k true).childlist B.node).ret = .ok 0 ∧ _ ∧ _ :=
      updating_copies huchildren (fun f hf => (hgcs f hf).1) hdropped
    rw [Outcome.next_ok (o := ⟨B.node, A.msgs ++ B.msgs, B.ret⟩) hret₁]
    generalize Outcome.each 0 (takeChild update true pl) (u.innerExpand k true).childlist B.node = C at hret₂ hquiet₂ hdone
    have hitems : ((n.innerExpand pl.parentKeyed true).childlist.map item).map Prod.snd = (contentOf d).2 := by
      rw [List.map_map, ← map_toField hnchildren fun f hf => (hdcs f hf).1.norm]
      rfl
    obtain ⟨hyield, hpass⟩ := Updating.yields (o := ⟨C.node, (A.msgs ++ B.msgs) ++ C.msgs, C.ret⟩) hdone hret₂
      (by rw [htEvents_append, htEvents_append, hquiet, hquiet₁, hquiet₂]; rfl)
      (List.append_ne_nil_of_right_ne_nil _ fun hnil => hgne (List.map_eq_nil_iff.mp hnil)) hn.tag hdtype
    rw [snd_replace fun t => (horder _ t).trans (by rw [htags]), hitems] at hyield
    exact ⟨hyield, fun _ _ => hpass⟩
  | false =>
    have h0 : levels ≠ 0 := by simpa using hlast.symm
    obtain ⟨husnd, hdsnd, -⟩ := hinner h0
    rw [map_item hnchildren fun f hf => (hdcs f hf).1.norm] at hafter
    obtain ⟨hdone, hfail⟩ := @updating_takeChildren n pl ms update (mergeField levels) _ _ _ huchildren
      (fun f hf => (hgcs f hf).1) (fun g' hg' d' hd' s c hs hc _ => hup h0 g' hg' d' hd' s c hs hc) husnd
      (fun d' hd' => (hdcs d' hd').1.norm) _ _ hafter (by rw [fst_identified]; exact hdsnd)
      fun c hc _ _ _ => exists_fromField hnchildren (hcs ▸ hc)
    rw [if_neg Bool.false_ne_true, if_neg h0, Outcome.each, Outcome.next_ok (o := ⟨A.node, A.msgs ++ [], .ok 0⟩) rfl]
    generalize Outcome.each 0 (takeChild update false pl) (u.innerExpand k false).childlist A.node = C at hdone hfail
    rw [mergeItems]
    cases hput : putAll (·.1) (joinItem (mergeField levels)) (identified (contentOf g).2) (identified (contentOf d).2) with
    | none =>
      obtain ⟨e, he⟩ := hfail hput
      refine ⟨.none (o := ⟨C.node, (A.msgs ++ []) ++ C.msgs, C.ret⟩) he, fun r hr => ?_⟩
      cases hr
    | some is =>
      obtain ⟨hret₂, hquiet₂, hdone⟩ := hdone is hput
      obtain ⟨hyield, hpass⟩ := Updating.yields (o := ⟨C.node, (A.msgs ++ []) ++ C.msgs, C.ret⟩) hdone hret₂
        (by rw [htEvents_append, htEvents_append, hquiet, hquiet₂]; rfl)
        (ne_nil_of_putAll hput fun hnil => hdne (List.map_eq_nil_iff.mp hnil)) hn.tag hdtype
      exact ⟨hyield, fun _ _ => hpass⟩

/-- **`UpdateSubTree` of the levels that are left is the merge** of the fields that the trees were parsed from. -/
theorem merged_levels {order : List UInt32 → List UInt32} (horder : ∀ l t, t ∈ order l ↔ t ∈ l) :
    ∀ (levels : ℕ) (k : Bool) (pl : Place) {g d : PbField} {u n : KnvNode}, FromField false g u → Genuine g →
    ¬(g.tag = 1 ∧ k = true) → FromField false d n → Genuine d → ¬(d.tag = 1 ∧ pl.parentKeyed = true) →
    Mergeable levels g d →
    Yields (mergeField levels g d) (updateSubTreeLevels order levels k u pl n) ∧
      (KeepsKey levels g d →
        ∀ r, mergeField levels g d = some r → Passed n (updateSubTreeLevels order levels k u pl n)) := by
  intro levels
  induction levels with
  | zero =>
    intro k pl g d u n hu hg _ hn hd _ _
    by_cases hsame : SameField g d
    swap
    · obtain ⟨hmerge, hupdate⟩ := updateSubTreeLevels_other order 0 k pl hu hg hn hd hsame
      rw [hmerge, hupdate]
      exact ⟨.some rfl (hn.toField hd.norm), fun _ _ _ => ⟨.quiet rfl rfl rfl, rfl⟩⟩
    have hother : ¬(n.tag ≠ u.tag ∨ n.key ≠ u.key) := by
      rw [hn.tag, hu.tag, hn.key hd.norm, hu.key hg.norm, not_or, not_not, not_not]
      exact hsame
    have hval : u.getValue.2 = .ok g.val := by
      rw [getValue_kept (hu.valid hg.ok) (by rw [isFolded_of_nil hu.nil.1 hu.nil.2, Bool.true_or]), hu.val hg.norm]
    rw [mergeField, if_pos hsame, updateSubTreeLevels, if_neg (bne_iff_ne.mp (hu.valid hg.ok)), if_neg hother]
    exact ⟨yields_takeValue hval hu.type (hn.valid hd.ok) hn.tag hn.type,
      fun _ _ _ => passed_takeValue hval hu.type ((hn.key hd.norm).trans hsame.2) (hn.testsKey hd)⟩
  | succ levels ih =>
    intro k pl g d u n hu hg hgtag hn hd hdtag hmerge
    by_cases hsame : SameField g d
    swap
    · obtain ⟨hmerge, hupdate⟩ := updateSubTreeLevels_other order (levels + 1) k pl hu hg hn hd hsame
      rw [hmerge, hupdate]
      exact ⟨.some rfl (hn.toField hd.norm), fun _ _ _ => ⟨.quiet rfl rfl rfl, rfl⟩⟩
    obtain ⟨last, hlast⟩ : ∃ last, last = (levels == 0) := ⟨_, rfl⟩
    have htag : n.tag = u.tag := by rw [hn.tag, hu.tag, hsame.1]
    have hkey : n.key = u.key := by rw [hn.key hd.norm, hu.key hg.norm, hsame.2]
    obtain ⟨-, huchildren⟩ := hu.opened hg hgtag last
    obtain ⟨-, hnchildren⟩ := hn.opened hd hdtag last
    have hval : (u.innerExpand k last).getValue.2 = .ok g.val := hu.getValue hg last
    have hutype : (u.innerExpand k last).type = g.type := (expandSame k last u).type.trans hu.type
    have hsame' := expandSame pl.parentKeyed last n
    have hopened : (n.innerExpand pl.parentKeyed last).isValid = true := by
      rw [isValid, hsame'.tag]
      exact hn.valid hd.ok
    have hkey' : (n.innerExpand pl.parentKeyed last).key = fieldKey g := hsame'.key.trans ((hn.key hd.norm).trans hsame.2)
    have hiff : ((u.innerExpand k last).childlist = [] ↔ (contentOf g).2 = []) ∧
        ((n.innerExpand pl.parentKeyed last).childlist = [] ↔ (contentOf d).2 = []) :=
      ⟨nil_iff_nil huchildren, nil_iff_nil hnchildren⟩
    rw [updateSubTreeLevels_succ (bne_iff_ne.mp (hu.valid hg.ok)) htag hkey hlast]
    by_cases hgne : (contentOf g).2 = []
    · rw [if_pos (hiff.1.mpr hgne), mergeField, if_neg (not_not_intro hsame), if_pos (.inl hgne)]
      cases last with
      | false =>
        rw [if_neg Bool.false_ne_true]
        exact ⟨yields_takeValue hval hutype (hn.valid hd.ok) hn.tag hn.type,
          fun _ _ _ => passed_takeValue hval hutype ((hn.key hd.norm).trans hsame.2) (hn.testsKey hd)⟩
      | true =>
        rw [if_pos rfl]
        refine ⟨yields_takeValue hval hutype hopened (hsame'.tag.trans hn.tag) (hsame'.type.trans hn.type),
          fun hkeep _ _ => ?_⟩
        have h1 : levels + 1 = 1 := by simpa using hlast.symm
        exact (passed_takeValue hval hutype hkey' (hn.testsKey_opened hd hdtag true (hkeep h1 hgne))).of_same hsame'.tag
          hsame'.key
    rw [if_neg fun h => hgne (hiff.1.mp h)]
    by_cases hdne : (contentOf d).2 = []
    · rw [if_pos (hiff.2.mpr hdne), mergeField, if_neg (not_not_intro hsame), if_pos (.inr hdne)]
      exact ⟨yields_takeValue hval hutype hopened (hsame'.tag.trans hn.tag) (hsame'.type.trans hn.type),
        fun _ _ _ => (passed_takeValue hval hutype hkey' (hn.testsKey_opened hd hdtag last (.inl hdne))).of_same hsame'.tag
          hsame'.key⟩
    rw [if_neg fun h => hdne (hiff.2.mp h)]
    obtain ⟨hyield, hpass⟩ := merged_takeContent horder (updateSubTreeLevels order levels (u.key.bytes != [])) hlast
      hu hg hgtag hn hd hdtag hgne hdne hsame hmerge fun h0 s' hs' c' hc' s c hs hc => by
        obtain ⟨-, hinner⟩ := hmerge hgne hdne
        obtain ⟨hrole, hshaped⟩ := role_updateSubTreeLevels order levels (u.key.bytes != [])
          ⟨n.key.bytes != [], false⟩ hs.shaped hc.shaped
        obtain ⟨hgs, hstag⟩ := hg.below.2 s' hs'
        obtain ⟨hdc, hctag⟩ := hd.below.2 c' hc'
        by_cases hsc : SameField s' c'
        · obtain ⟨hkeep, hbelow⟩ := (hinner h0).2.2 s' hs' c' hc' hsc
          obtain ⟨hyield, hpass⟩ := ih (u.key.bytes != []) ⟨n.key.bytes != [], false⟩ hs hgs
            (ne_one_of_child hstag _) hc hdc (ne_one_of_child hctag _) hbelow
          exact ⟨hyield, hpass hkeep, hrole, hshaped⟩
        · obtain ⟨hmerge, hupdate⟩ := updateSubTreeLevels_other order levels (u.key.bytes != [])
            ⟨n.key.bytes != [], false⟩ hs hgs hc hdc hsc
          rw [hmerge, hupdate]
          exact ⟨.some rfl (hc.toField hdc.norm), fun _ _ => ⟨.quiet rfl rfl rfl, rfl⟩, .refl c, hc.shaped⟩
    exact ⟨hyield, fun _ => hpass⟩

end KnvNode

/-! ### On the wire -/

open KnvNode

/-- A stored message is updated by a message that was received: `New` of both, `UpdateSubTree`, and `Serialize`. -/
def updateWire (order : List UInt32 → List UInt32) (maxLevel : ℤ) (upd data : Bytes) : Except KnvErr Bytes :=
  (newFromBytes upd).bind fun u => (newFromBytes data).bind fun n =>
    (updateSubTree order false u maxLevel {} n).ret.bind fun _ =>
      (updateSubTree order false u maxLevel {} n).node.serializeStr

variable {u d r : PbField} {order : List UInt32 → List UInt32} {maxLevel : ℤ}

/-- A canonical message as a tree. -/
theorem Genuine.tree (h : Genuine u) : ∃ n, newFromBytes u.encode = .ok n ∧ FromField false u n ∧ Serving {} n :=
  ⟨_, newFromBytes_encode h.ok h.norm, ⟨0, rfl⟩, serving_parsed h.ok h.norm h.canon (newFromBytes_encode h.ok h.norm)⟩

theorem KnvNode.FromField.fits (h : FromField false u n) (hn : u.norm = u) (hlen : u.val.str.length < 2 ^ 31) :
    All Fits n ∧ All Carried n := by
  have hfold := isFolded_of_nil h.nil.1 h.nil.2
  refine ⟨.of_nil ⟨?_, fun m hm => ?_⟩ h.nil.1 h.nil.2, .of_nil (.inl hfold) h.nil.1 h.nil.2⟩
  · rw [plainVal_of_folded hfold, h.val hn]
    exact hlen
  · rw [h.nil.1] at hm
    exact absurd hm List.not_mem_nil

/-- **`UpdateSubTree` is the merge of the messages.** Whatever the order in which the `unordered_set` of tags is gone
through, the update of a canonical message by a canonical message fails exactly when the merge fails, and otherwise
writes the merged message. -/
theorem updateWire_encode (horder : ∀ l t, t ∈ order l ↔ t ∈ l) (hu : Genuine u) (hd : Genuine d)
    (hlen : u.val.str.length < 2 ^ 31) (hmerge : Mergeable (maxLevel + 1).toNat u d) :
    (updateWire order maxLevel u.encode d.encode).toOption = (mergeField (maxLevel + 1).toNat u d).map PbField.encode := by
  obtain ⟨t, ht, hut, htserve⟩ := hu.tree
  obtain ⟨n, hn, hdn, hnserve⟩ := hd.tree
  obtain ⟨hyield, -⟩ := merged_levels horder (maxLevel + 1).toNat false {} hut hu (by simp) hdn hd (by simp)
    hmerge
  obtain ⟨hfits, hcarried⟩ := hut.fits hu.norm hlen
  have hwalk : Walk (byTree (fun s => ∃ i, s = .ofChild i) True t {}) {} n
      (updateSubTree order false t maxLevel {} n).node (updateSubTree order false t maxLevel {} n).msgs :=
    updateSubTreeLevels_walk order (fun i => ⟨i, rfl⟩) _ {} n .root fun _ => hnserve.message
  have hserve := hwalk.serving trivial (fun _ hs => hs)
    (fun _ _ hpart => Weighed.part ⟨⟨htserve.sound, hfits, hcarried⟩, htserve.measured⟩ hpart) hnserve
  have hwrite := (serializeStr_iff_of_measured hserve.sound hserve.measured _).mpr rfl
  have hrun : updateWire order maxLevel u.encode d.encode = (updateSubTree order false t maxLevel {} n).ret.bind fun _ =>
      .ok (updateSubTree order false t maxLevel {} n).node.plain := by
    rw [updateWire, ht, hn, ← hwrite]
    rfl
  rw [hrun]
  cases hr : mergeField (maxLevel + 1).toNat u d with
  | none =>
    obtain ⟨e, he⟩ := hyield.fail hr
    rw [show (updateSubTree order false t maxLevel {} n).ret = .error e from he]
    rfl
  | some r =>
    obtain ⟨hret, hfield⟩ := hyield.ok r hr
    rw [show (updateSubTree order false t maxLevel {} n).ret = .ok 0 from hret]
    refine congrArg some ?_
    rw [← show (updateSubTree order false t maxLevel {} n).node.toField = r from hfield, toField, encode_norm]
    rfl

end KnvProto
